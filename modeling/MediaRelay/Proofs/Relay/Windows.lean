import MediaRelay.Proofs.Relay.Releases

/-! # Windows

Time passes beside all that is done at a relay. A log is kept of the listings, with the time until
which the window of each is open, of the connections that go, and of the cursors that leave. What is
retained for a listing, and what work is on the way to give it up, can be told from what the log
says since that listing: a timer stands until the window is over, and a task for a cursor that has
left is queued until it has been run.
-/
namespace MediaRelay

inductive Incident where
  /-- A connection is listed, and its window is open until a time. -/
  | listed (id : ConnectionId) (source : SourceId) (due : Nat)
  /-- A connection goes from the table. -/
  | left (id : ConnectionId)
  /-- A cursor leaves a source. -/
  | departed (source : SourceId)
deriving DecidableEq

/-- A connection has been listed, and what has happened since. -/
def Since (log : List Incident) (id : ConnectionId) (k : SourceId) (due : Nat)
    (after : List Incident) : Prop :=
  ∃ before, log = before ++ .listed id k due :: after

section Since
variable {log more after : List Incident} {id : ConnectionId} {k : SourceId} {due : Nat}

theorem since_append :
    Since (log ++ more) id k due after ↔
      (∃ rest, Since log id k due rest ∧ after = rest ++ more) ∨ Since more id k due after := by
  constructor
  · rintro ⟨before, h⟩
    rcases List.append_eq_append_iff.mp h with ⟨mid, hbefore, hmore⟩ | ⟨mid, hlog, hrest⟩
    · exact Or.inr ⟨mid, hmore⟩
    · cases mid with
      | nil => exact Or.inr ⟨[], hrest.symm⟩
      | cons e mid =>
        obtain ⟨rfl, rfl⟩ := List.cons.inj hrest
        exact Or.inl ⟨mid, ⟨before, hlog⟩, rfl⟩
  · rintro (⟨rest, ⟨before, rfl⟩, rfl⟩ | ⟨before, rfl⟩)
    · exact ⟨before, by simp⟩
    · exact ⟨log ++ before, by simp⟩

theorem Since.mem (h : Since log id k due after) : .listed id k due ∈ log := by
  obtain ⟨before, rfl⟩ := h
  exact List.mem_append_right _ List.mem_cons_self

theorem not_since_nil : ¬Since [] id k due after := by
  rintro ⟨before, h⟩
  simp at h

theorem since_singleton {i : ConnectionId} {j : SourceId} {d : Nat} :
    Since [.listed i j d] id k due after ↔ id = i ∧ k = j ∧ due = d ∧ after = [] := by
  constructor
  · rintro ⟨before, h⟩
    obtain ⟨rfl, h⟩ | ⟨rest, rfl, h⟩ := List.cons_eq_append_iff.mp h
    · cases h
      exact ⟨rfl, rfl, rfl, rfl⟩
    · simp at h
  · rintro ⟨rfl, rfl, rfl, rfl⟩
    exact ⟨[], rfl⟩

end Since

/-- Something that happens at a relay, or time that passes. A timer may fire late, but not early:
the clock then stands at its due time at least. -/
inductive Moment where
  | deed (d : Deed)
  | elapse (time : Nat)

namespace Relay
variable {r s : Relay} {m : ManagerId}

def elapse (r : Relay) (time : Nat) : Relay :=
  { r with agenda := { r.agenda with clock := r.agenda.clock + time } }

/-- Listeners leave whenever they like, and nothing is listed but sources that have been created. -/
def pass (r : Relay) : Moment → Relay
  | .elapse time => r.elapse time
  | .deed (.move (.leave name)) => r.leave name
  | .deed (.list request k) => if k < r.nextSource then r.enact (.list request k) else r
  | .deed d => r.enact d

theorem pass_of_served {d : Deed} {served : Task × Agenda Task} (h : r.served? d = some served) :
    r.pass (.deed d) = r.enact d := by
  cases d with
  | move v => cases v <;> first | rfl | cases h
  | _ => first | rfl | cases h

/-- What a task lists that is performed at a time, with the end of its window. -/
def openings (r : Relay) (clock : Nat) : Task → List Incident
  | .add m _ k =>
    match r.manager with
    | some manager =>
      if manager.id = m then
        [.listed (r.registry.lastId + 1) k (clock + manager.settings.dedupWindow)]
      else []
    | none => []
  | _ => []

/-- The connections of one registry that are not in another. -/
def goings (g h : Registry) : List Incident := (g.ids.filter (· ∉ h.ids)).map .left

theorem mem_goings {g h : Registry} {id : ConnectionId} :
    .left id ∈ goings g h ↔ id ∈ g.ids ∧ id ∉ h.ids := by
  simp [goings]

theorem goings_self (g : Registry) : goings g g = [] := by
  simp [goings]

/-- The cursors that leave with a deed. -/
def partings (r : Relay) : Deed → List Incident
  | .move (.leave name) => ((r.listeners.get? name).map fun l => .departed l.source).toList
  | _ => []

/-- What the log tells of a moment. -/
def incidents (r : Relay) : Moment → List Incident
  | .elapse _ => []
  | .deed d =>
    match r.served? d with
    | some (t, a) => r.openings a.clock t ++ goings (r.listedBy t) (r.enact d).registry
    | none => r.partings d

def watch (c : Settings) (catalog : Catalog) (moments : List Moment) : Relay × List Incident :=
  moments.foldl (fun w mo => (w.1.pass mo, w.2 ++ w.1.incidents mo))
    (({} : Relay).makeManager c catalog, [])

/-- The thread has run all that is queued, and all timers that are due. -/
def Idle (r : Relay) : Prop :=
  r.agenda.stopped = false ∧ r.agenda.queue = [] ∧ ∀ u ∈ r.agenda.timers, r.agenda.clock < u.due

instance (r : Relay) : Decidable r.Idle := inferInstanceAs (Decidable (_ ∧ _ ∧ _))

theorem openings_agenda (a : Agenda Task) (clock : Nat) (t : Task) :
    openings { r with agenda := a } clock t = r.openings clock t := by
  cases t <;> rfl

theorem listedBy_agenda (a : Agenda Task) (t : Task) :
    listedBy { r with agenda := a } t = r.listedBy t := by
  cases t <;> rfl

theorem partings_of_not_leave {d : Deed} (h : ∀ name, d ≠ .move (.leave name)) :
    r.partings d = [] := by
  cases d with
  | move v => cases v <;> first | rfl | exact absurd rfl (h _)
  | _ => rfl

/-- A deed is done, but for those who leave without waiting and those who have nothing to list. -/
theorem pass_cases (r : Relay) (d : Deed) :
    (∃ name, d = .move (.leave name) ∧ r.pass (.deed d) = r.leave name) ∨
      (r.pass (.deed d) = r.enact d ∧ (∀ name, d ≠ .move (.leave name)) ∧
        ∀ request k, d = .list request k → k < r.nextSource) ∨
      r.pass (.deed d) = r ∧ ∀ name, d ≠ .move (.leave name) := by
  cases d with
  | move v =>
    cases v with
    | leave name => exact Or.inl ⟨name, rfl, rfl⟩
    | _ => exact Or.inr (Or.inl ⟨rfl, by simp, by simp⟩)
  | list request k =>
    by_cases hk : k < r.nextSource
    · refine Or.inr (Or.inl ⟨if_pos hk, by simp, ?_⟩)
      rintro _ _ ⟨⟩
      exact hk
    · exact Or.inr (Or.inr ⟨if_neg hk, by simp⟩)
  | _ => exact Or.inr (Or.inl ⟨rfl, by simp, by simp⟩)

theorem rests_elapse (h : r.Tidy) (time : Nat) : Rests [] r (r.elapse time) where
  tidy := ⟨h.numbered, h.channels, h.housed, h.asked, h.queued, h.timed⟩
  clock := Nat.le_add_right _ _
  timers := rfl
  running := rfl
  nextSource := Nat.le_refl _
  owed := by simp [elapse]
  hung := fun _ c hc => Or.inl ⟨c, hc, fun _ _ => Iff.rfl⟩

/-! ## Taking a task in hand -/

/-- The thread takes a task from the queue, or from a timer that is due. -/
structure Takes (r : Relay) (t : Task) (a : Agenda Task) : Prop where
  clock : r.agenda.clock ≤ a.clock
  running : a.stopped = r.agenda.stopped
  queue : a.queue ⊆ r.agenda.queue
  timers : a.timers ⊆ r.agenda.timers
  queued : ∀ u ∈ r.agenda.queue, u = t ∨ u ∈ a.queue
  rest : ∀ u ∈ r.agenda.timers, u ∈ a.timers ∨ u.task = t
  origin : t ∈ r.agenda.queue ∨ ∃ u ∈ r.agenda.timers, u.task = t ∧ u.due ≤ a.clock

theorem takes_of_served {d : Deed} {t : Task} {a : Agenda Task} (h : r.served? d = some (t, a)) :
    Takes r t a := by
  cases d with
  | move v =>
    cases v with
    | run =>
      have hnext : r.agenda.next? = some (t, a) := h
      unfold Agenda.next? at hnext
      cases hq : r.agenda.queue with
      | nil => simp [hq] at hnext
      | cons u rest =>
        simp only [hq, Option.some.injEq, Prod.mk.injEq] at hnext
        obtain ⟨rfl, rfl⟩ := hnext
        exact
          { clock := Nat.le_refl _
            running := rfl
            queue := hq ▸ List.subset_cons_self u rest
            timers := List.Subset.refl _
            queued := by simp [hq]
            rest := fun _ hv => Or.inl hv
            origin := Or.inl (hq ▸ List.mem_cons_self) }
    | fire n =>
      simp only [served?, Option.map_eq_some_iff, Prod.mk.injEq] at h
      obtain ⟨u, hu, rfl, rfl⟩ := h
      refine
        { clock := Nat.le_max_left _ _
          running := rfl
          queue := List.Subset.refl _
          timers := fun v hv => List.mem_of_mem_eraseIdx hv
          queued := fun _ hv => Or.inr hv
          rest := ?_
          origin := Or.inr ⟨u, List.mem_of_getElem? hu, rfl, Nat.le_max_right _ _⟩ }
      intro v hv
      obtain ⟨i, hi⟩ := List.getElem?_of_mem hv
      by_cases hin : i = n
      · rw [hin, hu] at hi
        cases hi
        exact Or.inr rfl
      · exact Or.inl (List.mem_eraseIdx_iff_getElem?.mpr ⟨i, hin, hi⟩)
    | _ => cases h
  | _ => cases h

theorem Takes.mem_iff {t : Task} {a : Agenda Task} (h : Takes r t a) (hr : r.Tidy)
    {id : ConnectionId} :
    .cursorLeft m id ∈ [t] ++ a.queue ↔ .cursorLeft m id ∈ [] ++ r.agenda.queue := by
  rw [List.nil_append]
  constructor
  · intro hmem
    rcases List.mem_append.mp hmem with hone | hqueue
    · have htask := List.mem_singleton.mp hone
      rcases h.origin with hqueue | ⟨u, hu, hut, _⟩
      · exact htask ▸ hqueue
      · have helapses := hr.timed u hu
        rw [hut, ← htask] at helapses
        cases helapses
    · exact h.queue hqueue
  · intro hmem
    rcases h.queued _ hmem with htask | hqueue
    · exact List.mem_append_left _ (List.mem_singleton.mpr htask)
    · exact List.mem_append_right _ hqueue

/-- All work to give something up is for ids that have been issued. -/
structure Fresh (m : ManagerId) (ts : List Task) (r : Relay) : Prop where
  posted : ∀ id, .cursorLeft m id ∈ ts ++ r.agenda.queue → id ≤ r.registry.lastId
  hung : ∀ k c, r.channels.get? k = some c → ∀ id, .cursorLeft m id ∈ c.onDetach →
    id ≤ r.registry.lastId
  timed : ∀ u ∈ r.agenda.timers, ∀ id, u.task = .windowElapsed m id → id ≤ r.registry.lastId

theorem Fresh.spends {ts us : List Task} (h : Fresh m ts r) (hs : Spends ts us r s)
    (hposted : ∀ id, .cursorLeft m id ∈ us → id ≤ r.registry.lastId) : Fresh m [] s where
  posted := by
    intro id hmem
    rw [List.nil_append, hs.rests.owed] at hmem
    rw [hs.lastId]
    rcases hmem with hqueue | hus
    · exact h.posted id (List.mem_append_right _ hqueue)
    · exact hposted id hus
  hung := by
    intro k c hc id hmem
    rw [hs.lastId]
    rcases hs.rests.hung k c hc with ⟨b, hb, hsame⟩ | ⟨_, hnone⟩
    · exact h.hung k b hb id ((hsame m id).mp hmem)
    · exact absurd hmem (hnone m id)
  timed := by
    rw [hs.rests.timers, hs.lastId]
    exact h.timed

theorem Fresh.opens {manager : Manager} {request : Request} {k : SourceId} (h : Fresh m [] r)
    (ho : Opens manager k r s) (hregistry : s.registry = r.registry.add request k) :
    Fresh m [] s := by
  have hlast : s.registry.lastId = r.registry.lastId + 1 := by
    rw [hregistry]
    rfl
  have hle : ∀ id, id ≤ r.registry.lastId → id ≤ s.registry.lastId := by
    intro id hid
    rw [hlast]
    exact Int.le_of_lt (Int.lt_add_one_of_le hid)
  refine ⟨?_, ?_, ?_⟩
  · intro id hmem
    rw [List.nil_append, ho.owed] at hmem
    exact hle id (h.posted id hmem)
  · intro j c hc id hmem
    obtain ⟨b, hb, hsame⟩ := ho.hung j c hc
    rcases (hsame m id).mp hmem with hold | ⟨_, _, rfl⟩
    · exact hle id (h.hung j b hb id hold)
    · exact Int.le_of_eq hlast.symm
  · rw [ho.timers]
    intro u hu id htask
    rcases List.mem_append.mp hu with hold | hnew
    · exact hle id (h.timed u hold id htask)
    · rw [List.mem_singleton.mp hnew] at htask
      cases htask
      exact Int.le_of_eq hlast.symm

/-! ## One listing -/

/-- What becomes of a listing, while the thread has the tasks `ts` in hand. -/
structure Accounted (m : ManagerId) (ts : List Task) (r : Relay) (id : ConnectionId) (k : SourceId)
    (due : Nat) (after : List Incident) : Prop where
  issued : id ≤ r.registry.lastId
  known : k < r.nextSource
  listed : id ∈ r.registry.ids ↔ .left id ∉ after
  source : ∀ j, r.registry.retained.get? id = some j → j = k
  timed : ∀ u ∈ r.agenda.timers, u.task = .windowElapsed m id → u.due = due
  elapsed : .windowElapsed m id ∈ ts → due ≤ r.agenda.clock
  waiting : (r.registry.retained.get? id).isSome →
    .windowElapsed m id ∈ ts ∨ ⟨due, .windowElapsed m id⟩ ∈ r.agenda.timers
  owed : (r.registry.retained.get? id).isSome → .departed k ∈ after →
    .cursorLeft m id ∈ ts ++ r.agenda.queue
  departed : .cursorLeft m id ∈ ts ++ r.agenda.queue → .departed k ∈ after
  hung : ∀ j c, r.channels.get? j = some c → (.cursorLeft m id ∈ c.onDetach ↔ j = k)
  kept : r.agenda.clock < due → .left id ∉ after → .departed k ∉ after →
    (r.registry.retained.get? id).isSome

namespace Accounted
variable {ts us : List Task} {id : ConnectionId} {k : SourceId} {due : Nat}
  {after more : List Incident}

theorem spends (h : Accounted m ts r id k due after) (hs : Spends ts us r s)
    (hm : r.isManagedBy m = true)
    (hleft : .left id ∈ more ↔ id ∈ r.registry.ids ∧ id ∉ s.registry.ids)
    (hdeparted : .departed k ∈ more ↔ .cursorLeft m id ∈ us) :
    Accounted m [] s id k due (after ++ more) := by
  have hlisted : id ∈ s.registry.ids ↔ .left id ∉ after ++ more := by
    rw [List.mem_append, not_or, ← h.listed, hleft]
    constructor
    · exact fun hid => ⟨hs.ids id hid, fun hgone => hgone.2 hid⟩
    · exact fun hid => Classical.byContradiction fun hgone => hid.2 ⟨hid.1, hgone⟩
  refine
    { issued := hs.lastId ▸ h.issued
      known := Nat.lt_of_lt_of_le h.known hs.rests.nextSource
      listed := hlisted
      source := fun j hj => h.source j (hs.less id j hj)
      timed := ?_
      elapsed := by simp
      waiting := ?_
      owed := ?_
      departed := ?_
      hung := ?_
      kept := ?_ }
  · rw [hs.rests.timers]
    exact h.timed
  · intro hsome
    rw [hs.rests.timers]
    rcases h.waiting (hs.retained_before hsome) with ht | htimer
    · exact absurd ht (hs.not_given hm hsome).2
    · exact Or.inr htimer
  · intro hsome hmem
    rw [List.nil_append, hs.rests.owed]
    rcases List.mem_append.mp hmem with hmem | hmem
    · rcases List.mem_append.mp (h.owed (hs.retained_before hsome) hmem) with ht | hqueue
      · exact absurd ht (hs.not_given hm hsome).1
      · exact Or.inl hqueue
    · exact Or.inr (hdeparted.mp hmem)
  · rw [List.nil_append, hs.rests.owed]
    rintro (hqueue | hposted)
    · exact List.mem_append_left _ (h.departed (List.mem_append_right _ hqueue))
    · exact List.mem_append_right _ (hdeparted.mpr hposted)
  · intro j c hc
    rcases hs.rests.hung j c hc with ⟨b, hb, hsame⟩ | ⟨hnew, hnone⟩
    · exact (hsame m id).trans (h.hung j b hb)
    · refine ⟨fun hmem => absurd hmem (hnone m id), ?_⟩
      rintro rfl
      exact absurd h.known (Nat.not_lt.mpr hnew)
  · intro hclock hstays hattended
    have hid := hlisted.mpr hstays
    rw [List.mem_append, not_or] at hstays hattended
    have hbefore := Nat.lt_of_le_of_lt hs.rests.clock hclock
    -- Neither has the window elapsed, nor has a cursor left.
    have helapsed : .windowElapsed m id ∉ ts :=
      fun ht => absurd (h.elapsed ht) (Nat.not_le.mpr hbefore)
    have hcursor : .cursorLeft m id ∉ ts :=
      fun ht => hattended.1 (h.departed (List.mem_append_left _ ht))
    rw [hs.kept m id hm hid hcursor helapsed]
    exact h.kept hbefore hstays.1 hattended.1

theorem opens (h : Accounted m [] r id k due after) {manager : Manager} {request : Request}
    {j : SourceId} (ho : Opens manager j r s)
    (hregistry : s.registry = r.registry.add request j) (i : ConnectionId) (d : Nat) :
    Accounted m [] s id k due (after ++ [.listed i j d]) := by
  have hold : id ≠ r.registry.lastId + 1 := Int.ne_of_lt (Int.lt_add_one_of_le h.issued)
  have hids : s.registry.ids = r.registry.ids ++ [r.registry.lastId + 1] := by
    rw [hregistry, ids_add]
  have hretained : s.registry.retained.get? id = r.registry.retained.get? id := by
    rw [hregistry]
    exact (r.registry.retained.get?_put _ id j).trans (if_neg hold)
  have hleft : .left id ∈ after ++ [.listed i j d] ↔ .left id ∈ after := by simp
  have hdeparted : .departed k ∈ after ++ [.listed i j d] ↔ .departed k ∈ after := by simp
  refine
    { issued := ?_
      known := ho.nextSource ▸ h.known
      listed := by simp [hids, hold, h.listed]
      source := hretained ▸ h.source
      timed := ?_
      elapsed := by simp
      waiting := ?_
      owed := ?_
      departed := ?_
      hung := ?_
      kept := ?_ }
  · rw [hregistry]
    exact Int.le_of_lt (Int.lt_add_one_of_le h.issued)
  · rw [ho.timers]
    intro u hu htask
    rcases List.mem_append.mp hu with hu | hu
    · exact h.timed u hu htask
    · rw [List.mem_singleton.mp hu] at htask
      cases htask
      exact absurd rfl hold
  · rw [hretained, ho.timers]
    exact fun hsome => (h.waiting hsome).imp_right (List.mem_append_left _)
  · rw [hretained, hdeparted, List.nil_append, ho.owed]
    exact h.owed
  · rw [hdeparted, List.nil_append, ho.owed]
    exact h.departed
  · intro l c hc
    obtain ⟨b, hb, hmem⟩ := ho.hung l c hc
    rw [hmem, ← h.hung l b hb]
    simp [hold]
  · rw [hretained, hleft, hdeparted, ho.clock]
    exact h.kept

theorem takes (h : Accounted m [] r id k due after) (hr : r.Tidy) {t : Task} {a : Agenda Task}
    (ht : Takes r t a) : Accounted m [t] { r with agenda := a } id k due after where
  issued := h.issued
  known := h.known
  listed := h.listed
  source := h.source
  timed := fun u hu => h.timed u (ht.timers hu)
  elapsed := by
    intro hmem
    have htask := List.mem_singleton.mp hmem
    rcases ht.origin with hqueue | ⟨u, hu, hut, hdue⟩
    · have hnot := hr.queued t hqueue
      rw [← htask] at hnot
      cases hnot
    · rw [← h.timed u hu (hut.trans htask.symm)]
      exact hdue
  waiting := by
    intro hsome
    rcases h.waiting hsome with hnone | htimer
    · cases hnone
    · rcases ht.rest _ htimer with hrest | htask
      · exact Or.inr hrest
      · exact Or.inl (List.mem_singleton.mpr htask)
  owed := fun hsome hmem => (ht.mem_iff hr).mpr (h.owed hsome hmem)
  departed := fun hmem => h.departed ((ht.mem_iff hr).mp hmem)
  hung := h.hung
  kept := fun hclock => h.kept (Nat.lt_of_le_of_lt ht.clock hclock)

end Accounted

theorem accounted_new {manager : Manager} {request : Request} {k : SourceId}
    (hf : Fresh m [] r) (hm : manager.id = m) (hk : k < r.nextSource) (ho : Opens manager k r s)
    (hregistry : s.registry = r.registry.add request k) :
    Accounted m [] s (r.registry.lastId + 1) k
      (r.agenda.clock + manager.settings.dedupWindow) [] := by
  have hnew : ¬r.registry.lastId + 1 ≤ r.registry.lastId := Int.not_le_of_gt (Int.lt_succ _)
  have hids : s.registry.ids = r.registry.ids ++ [r.registry.lastId + 1] := by
    rw [hregistry, ids_add]
  have hretained : s.registry.retained.get? (r.registry.lastId + 1) = some k := by
    rw [hregistry]
    exact (r.registry.retained.get?_put _ _ k).trans (if_pos rfl)
  refine
    { issued := by
        rw [hregistry]
        exact Int.le_refl _
      known := ho.nextSource ▸ hk
      listed := by simp [hids]
      source := by simp [hretained]
      timed := ?_
      elapsed := by simp
      waiting := ?_
      owed := by simp
      departed := ?_
      hung := ?_
      kept := by simp [hretained] }
  · rw [ho.timers]
    intro u hu htask
    rcases List.mem_append.mp hu with hu | hu
    · exact absurd (hf.timed u hu _ htask) hnew
    · rw [List.mem_singleton.mp hu]
  · rw [ho.timers, hm]
    exact fun _ => Or.inr (List.mem_append_right _ List.mem_cons_self)
  · rw [List.nil_append, ho.owed]
    exact fun hmem => absurd (hf.posted _ hmem) hnew
  · intro j c hc
    obtain ⟨b, hb, hmem⟩ := ho.hung j c hc
    rw [hmem]
    constructor
    · rintro (hold | ⟨hj, _, _⟩)
      · exact absurd (hf.hung j b hb _ hold) hnew
      · exact hj
    · exact fun hj => Or.inr ⟨hj, hm.symm, rfl⟩

end Relay
end MediaRelay
