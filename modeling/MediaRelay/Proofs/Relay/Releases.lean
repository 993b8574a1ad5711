import MediaRelay.Proofs.Relay.Offers

/-! # What gives a source up

The registry gives a source up when the window of its connection elapses, for which a timer stands,
or when a cursor leaves, for which a task hangs on the source. Such tasks come to the timers and to
the sources with a listing only, and to the queue only when a cursor leaves. All other work and all
that others do leaves them where they are.
-/
namespace MediaRelay

/-- A task that neither lists a source nor gives one up. -/
def Task.plain : Task → Bool
  | .add _ _ _ => false
  | .cursorLeft _ _ => false
  | .windowElapsed _ _ => false
  | _ => true

/-- A task for the end of a window. -/
def Task.elapses : Task → Bool
  | .windowElapsed _ _ => true
  | _ => false

theorem Task.elapses_of_plain {t : Task} (h : t.plain = true) : t.elapses = false := by
  cases t <;> first | rfl | cases h

theorem Relay.adds?_of_plain {t : Task} (h : t.plain = true) : adds? t = none := by
  cases t <;> first | rfl | cases h

theorem Relay.adds?_of_elapses {t : Task} (h : t.elapses = true) : adds? t = none := by
  cases t <;> first | rfl | cases h

/-- What is posted when the source goes is plain; a cursor that leaves may give the source up. -/
structure Channel.Tidy (c : Channel) : Prop where
  closing : ∀ t ∈ c.onClose, t.plain = true
  leaving : ∀ t ∈ c.onDetach, t.plain = true ∨ ∃ m id, t = .cursorLeft m id

namespace Relay
variable {r s t : Relay} {ts us : List Task}

/-- Sources have their numbers, listeners have their sources, and the tasks for giving a source up
are where they belong. -/
structure Tidy (r : Relay) : Prop where
  numbered : ∀ k c, r.channels.get? k = some c → k < r.nextSource
  channels : ∀ k c, r.channels.get? k = some c → c.Tidy
  housed : ∀ name l, r.listeners.get? name = some l → (r.channels.get? l.source).isSome
  asked : ∀ t ∈ r.agenda.queue, ∀ k, adds? t = some k → k < r.nextSource
  queued : ∀ t ∈ r.agenda.queue, t.elapses = false
  timed : ∀ t ∈ r.agenda.timers, t.task.elapses = true

/-- No source is listed or given up, and of the tasks for giving one up just those among `ts` have
been posted. -/
structure Rests (ts : List Task) (r s : Relay) : Prop where
  tidy : s.Tidy
  clock : r.agenda.clock ≤ s.agenda.clock
  timers : s.agenda.timers = r.agenda.timers
  running : s.agenda.stopped = r.agenda.stopped
  nextSource : r.nextSource ≤ s.nextSource
  owed : ∀ m id, .cursorLeft m id ∈ s.agenda.queue ↔
    .cursorLeft m id ∈ r.agenda.queue ∨ .cursorLeft m id ∈ ts
  hung : ∀ k c, s.channels.get? k = some c →
    (∃ b, r.channels.get? k = some b ∧
      ∀ m id, .cursorLeft m id ∈ c.onDetach ↔ .cursorLeft m id ∈ b.onDetach) ∨
    r.nextSource ≤ k ∧ ∀ m id, .cursorLeft m id ∉ c.onDetach

namespace Rests

theorem trans (h : Rests ts r s) (h' : Rests us s t) : Rests (ts ++ us) r t where
  tidy := h'.tidy
  clock := Nat.le_trans h.clock h'.clock
  timers := h'.timers.trans h.timers
  running := h'.running.trans h.running
  nextSource := Nat.le_trans h.nextSource h'.nextSource
  owed := by
    intro m id
    rw [h'.owed, h.owed, List.mem_append, or_assoc]
  hung := by
    intro k c hc
    rcases h'.hung k c hc with ⟨b, hb, hsame⟩ | ⟨hnew, hnone⟩
    · rcases h.hung k b hb with ⟨a, ha, hbefore⟩ | ⟨hnew, hnone⟩
      · exact Or.inl ⟨a, ha, fun m id => (hsame m id).trans (hbefore m id)⟩
      · exact Or.inr ⟨hnew, fun m id hmem => hnone m id ((hsame m id).mp hmem)⟩
    · exact Or.inr ⟨Nat.le_trans h.nextSource hnew, hnone⟩

theorem weaken (h : Rests ts r s)
    (hts : ∀ m id, Task.cursorLeft m id ∈ ts ↔ .cursorLeft m id ∈ us) : Rests us r s :=
  { h with owed := fun m id => by rw [h.owed, hts] }

theorem of_eq (h : r.Tidy) (hagenda : s.agenda = r.agenda) (hchannels : s.channels = r.channels)
    (hnext : s.nextSource = r.nextSource)
    (hlisteners : ∀ name l, s.listeners.get? name = some l →
      (r.channels.get? l.source).isSome) : Rests [] r s where
  tidy :=
    { numbered := by
        rw [hchannels, hnext]
        exact h.numbered
      channels := by
        rw [hchannels]
        exact h.channels
      housed := by
        rw [hchannels]
        exact hlisteners
      asked := by
        rw [hagenda, hnext]
        exact h.asked
      queued := by
        rw [hagenda]
        exact h.queued
      timed := by
        rw [hagenda]
        exact h.timed }
  clock := Nat.le_of_eq (by rw [hagenda])
  timers := by rw [hagenda]
  running := by rw [hagenda]
  nextSource := Nat.le_of_eq hnext.symm
  owed := by simp [hagenda]
  hung := fun k c hc => Or.inl ⟨c, hchannels ▸ hc, fun _ _ => Iff.rfl⟩

theorem refl (h : r.Tidy) : Rests [] r r := of_eq h rfl rfl rfl h.housed

theorem updateChannel (h : r.Tidy) (k : SourceId) {f : Channel → Channel}
    (htidy : ∀ c : Channel, c.Tidy → (f c).Tidy)
    (hsame : ∀ (c : Channel) m id,
      .cursorLeft m id ∈ (f c).onDetach ↔ .cursorLeft m id ∈ c.onDetach) :
    Rests [] r (r.updateChannel k f) := by
  have hget : ∀ j c, (r.updateChannel k f).channels.get? j = some c →
      ∃ b, r.channels.get? j = some b ∧ (b.Tidy → c.Tidy) ∧
        ∀ m id, .cursorLeft m id ∈ c.onDetach ↔ .cursorLeft m id ∈ b.onDetach := by
    intro j c hc
    simp only [Relay.updateChannel, Roster.get?_modify] at hc
    split at hc
    · obtain ⟨b, hb, rfl⟩ := Option.map_eq_some_iff.mp hc
      exact ⟨b, hb, htidy b, hsame b⟩
    · exact ⟨c, hc, fun hc => hc, fun _ _ => Iff.rfl⟩
  refine
    { tidy := ?_
      clock := Nat.le_refl _
      timers := rfl
      running := rfl
      nextSource := Nat.le_refl _
      owed := by simp [Relay.updateChannel]
      hung := ?_ }
  · refine ⟨?_, ?_, ?_, h.asked, h.queued, h.timed⟩
    · intro j c hc
      obtain ⟨b, hb, _⟩ := hget j c hc
      exact h.numbered j b hb
    · intro j c hc
      obtain ⟨b, hb, hbefore, _⟩ := hget j c hc
      exact hbefore (h.channels j b hb)
    · intro name l hl
      have hhoused := h.housed name l hl
      simp only [Relay.updateChannel, Roster.get?_modify]
      split
      · simpa using hhoused
      · exact hhoused
  · intro j c hc
    obtain ⟨b, hb, _, hmem⟩ := hget j c hc
    exact Or.inl ⟨b, hb, hmem⟩

theorem postAll (h : r.Tidy) (hrunning : r.agenda.stopped = false)
    (hadds : ∀ t ∈ ts, ∀ k, adds? t = some k → k < r.nextSource)
    (hts : ∀ t ∈ ts, t.elapses = false) :
    Rests ts r { r with agenda := r.agenda.postAll ts } := by
  rw [Agenda.postAll_of_running hrunning]
  refine
    { tidy := ⟨h.numbered, h.channels, h.housed, ?_, ?_, h.timed⟩
      clock := Nat.le_refl _
      timers := rfl
      running := rfl
      nextSource := Nat.le_refl _
      owed := fun m id => List.mem_append
      hung := fun k c hc => Or.inl ⟨c, hc, fun _ _ => Iff.rfl⟩ }
  · intro t ht
    rcases List.mem_append.mp ht with ht | ht
    · exact h.asked t ht
    · exact hadds t ht
  · intro t ht
    rcases List.mem_append.mp ht with ht | ht
    · exact h.queued t ht
    · exact hts t ht

theorem plain_postAll (h : r.Tidy) (hrunning : r.agenda.stopped = false)
    (hts : ∀ t ∈ ts, t.plain = true) :
    Rests [] r { r with agenda := r.agenda.postAll ts } := by
  have hposted : Rests ts r { r with agenda := r.agenda.postAll ts } := by
    refine postAll h hrunning ?_ ?_
    · intro t ht k hk
      rw [adds?_of_plain (hts t ht)] at hk
      cases hk
    · exact fun t ht => Task.elapses_of_plain (hts t ht)
  refine hposted.weaken fun m id => ?_
  have hnone : .cursorLeft m id ∉ ts := fun hmem => by cases hts _ hmem
  simp [hnone]

theorem reap (h : r.Tidy) (hrunning : r.agenda.stopped = false) (k : SourceId) :
    Rests [] r (r.reap k) := by
  rcases r.reap_cases k with ⟨he, _⟩ | ⟨c, hc, hfree, he⟩
  · rw [he]
    exact refl h
  · let gone : Relay := { r with channels := r.channels.erase k }
    have hget : ∀ j b, gone.channels.get? j = some b → j ≠ k ∧ r.channels.get? j = some b := by
      intro j b hb
      simpa only [gone, Roster.get?_erase, Option.ite_none_left_eq_some] using hb
    have hgone : Rests [] r gone := by
      refine
        { tidy := ⟨?_, ?_, ?_, h.asked, h.queued, h.timed⟩
          clock := Nat.le_refl _
          timers := rfl
          running := rfl
          nextSource := Nat.le_refl _
          owed := by simp [gone]
          hung := fun j b hb => Or.inl ⟨b, (hget j b hb).2, fun _ _ => Iff.rfl⟩ }
      · exact fun j b hb => h.numbered j b (hget j b hb).2
      · exact fun j b hb => h.channels j b (hget j b hb).2
      · intro name l hl
        have hne : l.source ≠ k := by
          rintro rfl
          have hheld := (r.isHeld_iff l.source).mpr (Or.inr (Or.inl ⟨name, l, hl, rfl⟩))
          rw [hfree] at hheld
          cases hheld
        simp only [gone, Roster.get?_erase, if_neg hne]
        exact h.housed name l hl
    rw [he]
    exact hgone.trans (plain_postAll hgone.tidy hrunning (h.channels k c hc).closing)

theorem openSource (h : r.Tidy) (z : Sizing) (i : Input) (owned : Bool) :
    Rests [] r (r.openSource z i owned).2 := by
  have hget : ∀ j c, (r.openSource z i owned).2.channels.get? j = some c →
      (j = r.nextSource ∧ c.onDetach = [] ∧ c.onClose = []) ∨ r.channels.get? j = some c := by
    intro j c hc
    simp only [Relay.openSource, Roster.get?_put] at hc
    split at hc
    · rename_i hj
      cases hc
      exact Or.inl ⟨hj, rfl, rfl⟩
    · exact Or.inr hc
  refine
    { tidy := ⟨?_, ?_, ?_, ?_, h.queued, h.timed⟩
      clock := Nat.le_refl _
      timers := rfl
      running := rfl
      nextSource := Nat.le_succ _
      owed := by simp [Relay.openSource]
      hung := ?_ }
  · intro j c hc
    rcases hget j c hc with ⟨rfl, _⟩ | hold
    · exact Nat.lt_succ_self _
    · exact Nat.lt_succ_of_lt (h.numbered j c hold)
  · intro j c hc
    rcases hget j c hc with ⟨_, hdetach, hclose⟩ | hold
    · exact ⟨by simp [hclose], by simp [hdetach]⟩
    · exact h.channels j c hold
  · intro name l hl
    simp only [Relay.openSource, Roster.get?_put]
    split
    · rfl
    · exact h.housed name l hl
  · exact fun t ht k hk => Nat.lt_succ_of_lt (h.asked t ht k hk)
  · intro j c hc
    rcases hget j c hc with ⟨rfl, hdetach, _⟩ | hold
    · exact Or.inr ⟨Nat.le_refl _, by simp [hdetach]⟩
    · exact Or.inl ⟨c, hold, fun _ _ => Iff.rfl⟩

theorem join? {k : SourceId} {name : String} {l : Listener} (h : r.Tidy)
    (hj : r.join? k name = some (l, s)) : Rests [] r s := by
  unfold Relay.join? at hj
  split at hj
  · cases hj
  · rename_i c hc
    split at hj
    · cases hj
    · rename_i source _
      cases hj
      have hsource : Rests [] r (r.updateSource k fun _ => source) :=
        updateChannel h k (fun _ hc => ⟨hc.closing, hc.leaving⟩) fun _ _ _ => Iff.rfl
      refine hsource.trans (of_eq hsource.tidy rfl rfl rfl ?_)
      intro other m hm
      rw [Roster.get?_put] at hm
      split at hm
      · cases hm
        simp [updateSource, Relay.updateChannel, Roster.get?_modify, hc]
      · exact hsource.tidy.housed other m hm

theorem joining (h : r.Tidy) (k : SourceId) (name : String) : Rests [] r (r.joining k name) := by
  unfold Relay.joining
  cases hj : r.join? k name with
  | none => exact refl h
  | some p => exact join? (l := p.1) h hj

theorem tryAttach {request : Request} {name : String} {l : Listener} (h : r.Tidy)
    (hattach : r.tryAttach request name = .ok (l, s)) : Rests [] r s := by
  unfold Relay.tryAttach at hattach
  split at hattach
  · cases hattach
  · split at hattach
    · cases hattach
    · rename_i hj
      cases hattach
      exact join? h hj

theorem listen? {α : Type} {name : String} {act : Reader → Feed → Option (α × Reader × Feed)}
    {a : α} (h : r.Tidy) (hlisten : r.listen? name act = some (a, s)) : Rests [] r s := by
  unfold Relay.listen? at hlisten
  split at hlisten
  · cases hlisten
  · rename_i l _
    split at hlisten
    · cases hlisten
    · split at hlisten
      · cases hlisten
      · rename_i feed _
        cases hlisten
        have hfeed : Rests [] r (r.updateChannel l.source fun c => { c with feed := feed }) :=
          updateChannel h l.source (fun _ hc => ⟨hc.closing, hc.leaving⟩) fun _ _ _ => Iff.rfl
        refine hfeed.trans (of_eq hfeed.tidy rfl rfl rfl ?_)
        intro other m hm
        rw [Roster.get?_modify] at hm
        split at hm
        · obtain ⟨b, hb, rfl⟩ := Option.map_eq_some_iff.mp hm
          exact hfeed.tidy.housed other b hb
        · exact hfeed.tidy.housed other m hm

theorem disown (h : r.Tidy) (hrunning : r.agenda.stopped = false) (k : SourceId) :
    Rests [] r (r.disown k) := by
  have hfree : Rests [] r (r.updateChannel k fun c => { c with owned := false }) :=
    updateChannel h k (fun _ hc => ⟨hc.closing, hc.leaving⟩) fun _ _ _ => Iff.rfl
  exact hfree.trans (reap hfree.tidy hrunning k)

theorem ask (h : r.Tidy) (hrunning : r.agenda.stopped = false) (t : ManagerId → Task)
    (ht : ∀ m, (t m).plain = true ∨ ∃ request k, t m = .add m request k ∧ k < r.nextSource) :
    Rests [] r (r.ask t) := by
  unfold Relay.ask
  split
  · exact refl h
  · rename_i m _
    rcases ht m.id with hplain | ⟨request, k, hadd, hk⟩
    · have hone : ∀ u ∈ [t m.id], u.plain = true := by simpa using hplain
      exact plain_postAll h hrunning hone
    · rw [hadd]
      have hposted : Rests [.add m.id request k] r
          { r with agenda := r.agenda.postAll [.add m.id request k] } := by
        refine postAll h hrunning ?_ (by simp [Task.elapses])
        intro u hu j hj
        rw [List.mem_singleton.mp hu] at hj
        cases hj
        exact hk
      exact hposted.weaken fun i id => by simp

theorem leave (h : r.Tidy) (hrunning : r.agenda.stopped = false) {name : String} {l : Listener}
    {c : Channel} (hl : r.listeners.get? name = some l)
    (hc : r.channels.get? l.source = some c) : Rests c.onDetach r (r.leave name) := by
  let detached := r.updateSource l.source (·.detach l.reader.cursor)
  have hdetached : Rests [] r detached :=
    updateChannel h l.source (fun _ hc => ⟨hc.closing, hc.leaving⟩) fun _ _ _ => Iff.rfl
  have htasks : ((detached.channels.get? l.source).map Channel.onDetach).getD [] = c.onDetach := by
    simp [detached, updateSource, Relay.updateChannel, Roster.get?_modify, hc]
  have hleaving := (h.channels l.source c hc).leaving
  have hposted : Rests c.onDetach detached
      { detached with agenda := detached.agenda.postAll c.onDetach } := by
    refine postAll hdetached.tidy hrunning ?_ ?_
    · intro t ht k hk
      rcases hleaving t ht with hplain | ⟨m, id, rfl⟩
      · rw [adds?_of_plain hplain] at hk
        cases hk
      · cases hk
    · intro t ht
      rcases hleaving t ht with hplain | ⟨m, id, rfl⟩
      · exact Task.elapses_of_plain hplain
      · rfl
  let left : Relay :=
    { detached with
      agenda := detached.agenda.postAll c.onDetach
      listeners := detached.listeners.erase name }
  have hleft : Rests [] { detached with agenda := detached.agenda.postAll c.onDetach } left := by
    refine of_eq hposted.tidy rfl rfl rfl ?_
    intro other m hm
    simp only [left, Roster.get?_erase, Option.ite_none_left_eq_some] at hm
    exact hposted.tidy.housed other m hm.2
  have hall := hdetached.trans (hposted.trans hleft)
  have hreaped := hall.trans (reap hall.tidy (hall.running.trans hrunning) l.source)
  have hform : r.leave name = left.reap l.source := by
    simp only [Relay.leave, hl]
    rw [htasks]
  rw [hform]
  exact hreaped.weaken fun m id => by simp

end Rests

/-- The deeds that nobody is asked for: none of the thread's, no parting and no stop, and listings
only of sources there have been. -/
theorem rests_enact (h : r.Tidy) (hrunning : r.agenda.stopped = false) {d : Deed}
    (hserved : r.served? d = none) (hleave : ∀ name, d ≠ .move (.leave name))
    (hlist : ∀ request k, d = .list request k → k < r.nextSource) (hstop : d ≠ .stop) :
    Rests [] r (r.enact d) := by
  have hchannel : ∀ (k : SourceId) (f : Channel → Channel), (∀ c : Channel, c.Tidy → (f c).Tidy) →
      (∀ (c : Channel) m id,
        .cursorLeft m id ∈ (f c).onDetach ↔ .cursorLeft m id ∈ c.onDetach) →
      Rests [] r (r.updateChannel k f) := fun k _ => Rests.updateChannel h k
  cases d with
  | own z i => exact .openSource h z i true
  | disown k => exact .disown h hrunning k
  | join k name =>
    simp only [enact]
    split
    · exact .refl h
    · exact .joining h k name
  | list request k =>
    exact .ask h hrunning (fun m => .add m request k) fun m =>
      Or.inr ⟨request, k, rfl, hlist request k rfl⟩
  | stop => exact absurd rfl hstop
  | strike id =>
    simp only [enact, hrunning]
    exact .refl h
  | move v =>
    cases v with
    | openReader name z i =>
      simp only [enact, make]
      split
      · exact .refl h
      · have hopened := Rests.openSource h z i false
        exact hopened.trans (.joining hopened.tidy _ name)
    | attach other name =>
      simp only [enact, make]
      split
      · exact .joining h _ name
      · exact .refl h
    | tryAttach request name =>
      simp only [enact, make]
      split
      · rename_i hattached
        exact .tryAttach h hattached
      · exact .refl h
    | call name call =>
      simp only [enact, make]
      generalize hlisten : r.listen? name _ = result
      cases result with
      | none => exact .refl h
      | some p => exact .listen? (a := p.1) h hlisten
    | leave name => exact absurd rfl (hleave name)
    | produce k => exact hchannel k _ (fun _ hc => ⟨hc.closing, hc.leaving⟩) fun _ _ _ => Iff.rfl
    | feed k items => exact hchannel k _ (fun _ hc => ⟨hc.closing, hc.leaving⟩) fun _ _ _ => Iff.rfl
    | onClose k tag =>
      refine hchannel k _ (fun c hc => ⟨?_, hc.leaving⟩) fun _ _ _ => Iff.rfl
      intro t ht
      rcases List.mem_append.mp ht with ht | ht
      · exact hc.closing t ht
      · rw [List.mem_singleton.mp ht]
        rfl
    | onDetach k tag =>
      refine hchannel k _ (fun c hc => ⟨hc.closing, ?_⟩) fun c m id => by simp
      intro t ht
      rcases List.mem_append.mp ht with ht | ht
      · exact hc.leaving t ht
      · rw [List.mem_singleton.mp ht]
        exact Or.inl rfl
    | add name request =>
      simp only [enact, make]
      split
      · exact .refl h
      · rename_i l hl
        obtain ⟨c, hc⟩ := Option.isSome_iff_exists.mp (h.housed name l hl)
        exact .ask h hrunning (fun m => .add m request l.source) fun m =>
          Or.inr ⟨request, l.source, rfl, h.numbered l.source c hc⟩
    | remove id => exact .ask h hrunning (fun m => .remove m id) fun _ => Or.inl rfl
    | close => exact .ask h hrunning .close fun _ => Or.inl rfl
    | subscribe s => exact .ask h hrunning (fun m => .subscribe m s) fun _ => Or.inl rfl
    | unsubscribe id => exact .ask h hrunning (fun m => .unsubscribe m id) fun _ => Or.inl rfl
    | subscriptions all => exact .of_eq h rfl rfl rfl h.housed
    | run =>
      have hnext : r.agenda.next? = none := hserved
      simp only [enact, make, runNext?, hnext, Option.getD_none]
      exact .refl h
    | fire n =>
      have hnone : r.agenda.timers[n]? = none := by simpa [served?] using hserved
      simp only [enact, make, fire?, hnone, Option.getD_none]
      exact .refl h

/-! ## The thread -/

theorem clock_postAll (a : Agenda Task) (ts : List Task) : (a.postAll ts).clock = a.clock := by
  induction ts generalizing a with
  | nil => rfl
  | cons t rest ih =>
    rw [Agenda.postAll, List.foldl_cons, ← Agenda.postAll, ih]
    unfold Agenda.post
    split <;> rfl

theorem clock_forget (r : Relay) (id : ConnectionId) :
    (r.forget id).agenda.clock = r.agenda.clock := by
  unfold forget
  split
  · rfl
  · rename_i k _
    rcases (r.updateRegistry (·.forget id)).reap_cases k with ⟨he, _⟩ | ⟨c, _, _, he⟩ <;> rw [he]
    · rfl
    · exact clock_postAll _ _

theorem kept_clock : Kept fun r s => s.agenda.clock = r.agenda.clock where
  refl := fun _ => rfl
  trans := fun h h' => h'.trans h
  enter := fun _ _ => rfl
  renounce := fun _ _ => rfl
  subscribe := fun _ _ => rfl
  unsubscribe := fun _ _ => rfl
  forget := clock_forget
  delistAll := fun _ => rfl
  delist := fun r id _ =>
    (clock_postAll _ [.announce]).trans (clock_forget (r.updateRegistry (·.delist id)) id)

theorem plain_of_posted {ps : List Posting} (h : r.Tidy) {t : Task}
    (ht : t ∈ ps.flatMap r.tasksOf) : t.plain = true := by
  obtain ⟨p, hp, htask⟩ := List.mem_flatMap.mp ht
  cases p with
  | announced =>
    rw [List.mem_singleton.mp htask]
    rfl
  | gone k =>
    cases hc : r.channels.get? k with
    | none => simp [tasksOf, hc] at htask
    | some c =>
      simp only [tasksOf, hc, Option.map_some, Option.getD_some] at htask
      exact (h.channels k c hc).closing t htask

/-- What is alive after the work has been so before, and what is listened to is still alive. -/
theorem Tidy.works {ps : List Posting} (h : r.Tidy) (hworks : Works r ps s) : s.Tidy := by
  refine ⟨?_, ?_, ?_, ?_, ?_, ?_⟩
  · intro k c hc
    rw [hworks.nextSource]
    exact h.numbered k c (hworks.channels k c hc)
  · exact fun k c hc => h.channels k c (hworks.channels k c hc)
  · intro name l hl
    rw [hworks.listeners] at hl
    cases hc : s.channels.get? l.source with
    | some c => rfl
    | none =>
      have hfree := hworks.released l.source (h.housed name l hl) hc
      have hheld := (s.isHeld_iff l.source).mpr
        (Or.inr (Or.inl ⟨name, l, hworks.listeners ▸ hl, rfl⟩))
      rw [hfree] at hheld
      cases hheld
  · intro t ht k hk
    rw [hworks.queue] at ht
    rw [hworks.nextSource]
    rcases List.mem_append.mp ht with ht | ht
    · exact h.asked t ht k hk
    · rw [adds?_of_plain (plain_of_posted h ht)] at hk
      cases hk
  · intro t ht
    rw [hworks.queue] at ht
    rcases List.mem_append.mp ht with ht | ht
    · exact h.queued t ht
    · exact Task.elapses_of_plain (plain_of_posted h ht)
  · rw [hworks.timers]
    exact h.timed

theorem rests_of_works {ps : List Posting} (h : r.Tidy) (hworks : Works r ps s)
    (hclock : s.agenda.clock = r.agenda.clock) : Rests [] r s where
  tidy := h.works hworks
  clock := Nat.le_of_eq hclock.symm
  timers := hworks.timers
  running := hworks.running
  nextSource := Nat.le_of_eq hworks.nextSource.symm
  owed := by
    intro m id
    have hnone : .cursorLeft m id ∉ ps.flatMap r.tasksOf :=
      fun hmem => by cases plain_of_posted h hmem
    rw [hworks.queue, List.mem_append]
    simp [hnone]
  hung := fun k c hc => Or.inl ⟨c, hworks.channels k c hc, fun _ _ => Iff.rfl⟩

/-- What is left of the registry when the tasks `ts` are done and nothing is listed. Just those
connections lose their source that go from the table, or that such a task is about. -/
structure Spends (ts us : List Task) (r s : Relay) : Prop where
  rests : Rests us r s
  manager : s.manager.map Manager.id = r.manager.map Manager.id
  kempt : r.registry.Kempt → s.registry.Kempt
  lastId : s.registry.lastId = r.registry.lastId
  ids : ∀ id ∈ s.registry.ids, id ∈ r.registry.ids
  less : ∀ id k, s.registry.retained.get? id = some k → r.registry.retained.get? id = some k
  kept : ∀ m id, r.isManagedBy m = true → id ∈ s.registry.ids → .cursorLeft m id ∉ ts →
    .windowElapsed m id ∉ ts → s.registry.retained.get? id = r.registry.retained.get? id
  given : ∀ m id, r.isManagedBy m = true → .cursorLeft m id ∈ ts ∨ .windowElapsed m id ∈ ts →
    s.registry.retained.get? id = none

namespace Spends
variable {id : ConnectionId}

theorem retained_before (h : Spends ts us r s)
    (hid : (s.registry.retained.get? id).isSome) : (r.registry.retained.get? id).isSome := by
  obtain ⟨k, hk⟩ := Option.isSome_iff_exists.mp hid
  simp [h.less id k hk]

theorem not_given (h : Spends ts us r s) {m : ManagerId} (hm : r.isManagedBy m = true)
    (hid : (s.registry.retained.get? id).isSome) :
    .cursorLeft m id ∉ ts ∧ .windowElapsed m id ∉ ts := by
  refine ⟨fun ht => ?_, fun ht => ?_⟩
  · rw [h.given m id hm (Or.inl ht)] at hid
    cases hid
  · rw [h.given m id hm (Or.inr ht)] at hid
    cases hid

end Spends

theorem ids_of_works {ps : List Posting} (h : Works r ps s) {id : ConnectionId}
    (hid : id ∈ s.registry.ids) : id ∈ r.registry.ids := by
  obtain ⟨n, hn⟩ := Option.isSome_iff_exists.mp ((s.registry.connections.mem_ids_iff id).mp hid)
  exact (r.registry.connections.mem_ids_iff id).mpr (by simp [h.connections id n hn])

theorem ids_cleared (r : Relay) : r.cleared.registry.ids = [] := by
  rw [registry_cleared]
  exact r.registry.kempt_cleared.2.2

theorem eq_of_isManagedBy {i j : ManagerId} (hi : r.isManagedBy i = true)
    (hj : r.isManagedBy j = true) : i = j := by
  obtain ⟨m, hm, rfl⟩ := exists_manager_of_managed hi
  simpa [isManagedBy, hm] using hj

/-- Where the registry stays as it is, no such task has been in hand. -/
theorem spends_of_manager (h : Rests us r s) (hmanager : s.manager = r.manager)
    (hts : ∀ m id, .cursorLeft m id ∉ ts ∧ .windowElapsed m id ∉ ts) : Spends ts us r s := by
  have hregistry : s.registry = r.registry := by rw [registry, hmanager, ← registry]
  exact
    { rests := h
      manager := by rw [hmanager]
      kempt := by
        rw [hregistry]
        exact id
      lastId := by rw [hregistry]
      ids := by simp [hregistry]
      less := by simp [hregistry]
      kept := by simp [hregistry]
      given := by simp [hts] }

theorem spends_tellAll (h : r.Tidy) (hrunning : r.agenda.stopped = false) (n : Nat) :
    Spends [] [] r (tellAll remove n r) := by
  obtain ⟨ps, hworks⟩ := kept_progresses.tellAll kept_progresses.remove n r hrunning
  obtain ⟨gone, hturned⟩ := telling_leaves.tellAll telling_leaves.remove n r
  have hspares := telling_spares.tellAll telling_spares.remove n r
  exact
    { rests := rests_of_works h hworks (kept_clock.tellAll kept_clock.remove n r)
      manager := hturned.manager
      kempt := hturned.kempt
      lastId := hspares.lastId
      ids := fun _ hid => hspares.ids.subset hid
      less := hworks.retained
      kept := fun _ id _ hid _ _ => hspares.retained id hid
      given := by simp }

/-- What stays listed through a task keeps its source, unless the task is to give it up. -/
theorem retained_perform {t : Task} (ht : adds? t = none) {m : ManagerId} {id : ConnectionId}
    (hm : r.isManagedBy m = true) (hid : id ∈ (r.perform t).registry.ids)
    (hleft : t ≠ .cursorLeft m id) (helapsed : t ≠ .windowElapsed m id) :
    (r.perform t).registry.retained.get? id = r.registry.retained.get? id := by
  have hspares : ∀ (b : Bool) {s}, Spares r s → id ∈ (if b then s else r).registry.ids →
      (if b then s else r).registry.retained.get? id = r.registry.retained.get? id := by
    intro b s hs hid
    cases b with
    | true => exact hs.retained id hid
    | false => rfl
  have hothers : ∀ (b : Bool) (i : ConnectionId), (b = true → id ≠ i) →
      (if b then r.forget i else r).registry.retained.get? id =
        r.registry.retained.get? id := by
    intro b i hne
    cases b with
    | true =>
      rw [if_pos rfl, registry_forget, Registry.forget, Roster.get?_erase, if_neg (hne rfl)]
    | false => rfl
  cases t with
  | add m request k => cases ht
  | remove m i => exact hspares _ (telling_spares.remove i r) hid
  | sourceClosed m i => exact hspares _ (telling_spares.remove i r) hid
  | close m =>
    simp only [perform] at hid ⊢
    split
    · rename_i hmanaged
      rw [if_pos hmanaged] at hid
      have hnone := (telling_spares.tellAll telling_spares.remove 0 r.cleared).ids.subset hid
      rw [ids_cleared] at hnone
      cases hnone
    · rfl
  | subscribe m s =>
    have hsame : Spares r (r.updateRegistry (·.subscribe s)) :=
      .updateRegistry r (fun _ => rfl) (fun _ => rfl) fun _ => rfl
    exact hspares _ hsame hid
  | unsubscribe m i =>
    have hsame : Spares r (r.updateRegistry (·.unsubscribe i)) :=
      .updateRegistry r (fun _ => rfl) (fun _ => rfl) fun _ => rfl
    exact hspares _ hsame hid
  | cursorLeft n i =>
    refine hothers _ i fun hn hi => hleft ?_
    rw [hi, eq_of_isManagedBy hm hn]
  | windowElapsed n i =>
    refine hothers _ i fun hn hi => helapsed ?_
    rw [hi, eq_of_isManagedBy hm hn]
  | announce => rfl
  | enter e => rfl

theorem spends_perform (h : r.Tidy) (hrunning : r.agenda.stopped = false) {t : Task}
    (ht : adds? t = none) : Spends [t] [] r (r.perform t) := by
  obtain ⟨ps, hworks⟩ := kept_progresses.perform r ht hrunning
  obtain ⟨gone, hturned⟩ := turned_perform r t
  refine
    { rests := rests_of_works h hworks (kept_clock.perform r ht)
      manager := hturned.manager
      kempt := hturned.kempt
      lastId := hworks.lastId
      ids := fun _ => ids_of_works hworks
      less := hworks.retained
      kept := ?_
      given := ?_ }
  · intro m id hm hid hleft helapsed
    have hne : ∀ {u}, u ∉ [t] → t ≠ u := fun hu htu => hu (List.mem_singleton.mpr htu.symm)
    exact retained_perform ht hm hid (hne hleft) (hne helapsed)
  · simp only [List.mem_singleton]
    rintro m id hm (rfl | rfl)
    · simp only [perform, hm, if_true]
      exact r.retained_forget id
    · simp only [perform, hm, if_true]
      exact r.retained_forget id

/-! ## Listings -/

theorem ids_add (g : Registry) (request : Request) (k : SourceId) :
    (g.add request k).ids = g.ids ++ [g.lastId + 1] :=
  congrArg Table.ids (g.table_add request k)

/-- A new listing, when it is announced and before anybody is told. -/
def announced (m : Manager) (request : Request) (k : SourceId) (r : Relay) : Relay :=
  (listing m request k r).post .announce

theorem add_eq_announced (m : Manager) (request : Request) (k : SourceId) (r : Relay) :
    add m request k r =
      tellAll remove (listing m request k r).registry.count (announced m request k r) := rfl

/-- A new listing has a timer for its window, and hangs on its source. -/
structure Opens (m : Manager) (k : SourceId) (r s : Relay) : Prop where
  tidy : s.Tidy
  clock : s.agenda.clock = r.agenda.clock
  timers : s.agenda.timers = r.agenda.timers ++
    [⟨r.agenda.clock + m.settings.dedupWindow, .windowElapsed m.id (r.registry.lastId + 1)⟩]
  running : s.agenda.stopped = r.agenda.stopped
  nextSource : s.nextSource = r.nextSource
  owed : ∀ i id, .cursorLeft i id ∈ s.agenda.queue ↔ .cursorLeft i id ∈ r.agenda.queue
  hung : ∀ j c, s.channels.get? j = some c → ∃ b, r.channels.get? j = some b ∧
    ∀ i id, .cursorLeft i id ∈ c.onDetach ↔
      .cursorLeft i id ∈ b.onDetach ∨ j = k ∧ i = m.id ∧ id = r.registry.lastId + 1

theorem lastId_adding {m : Manager} (hm : r.manager = some m) (request : Request) (k : SourceId) :
    (r.updateRegistry (·.add request k)).registry.lastId = r.registry.lastId + 1 := by
  rw [registry_updateRegistry hm]
  rfl

theorem agenda_announced {m : Manager} (hm : r.manager = some m)
    (hrunning : r.agenda.stopped = false) (request : Request) (k : SourceId) :
    (announced m request k r).agenda =
      { r.agenda with
        queue := r.agenda.queue ++ [.announce]
        timers := r.agenda.timers ++
          [⟨r.agenda.clock + m.settings.dedupWindow,
            .windowElapsed m.id (r.registry.lastId + 1)⟩] } := by
  have hform : (announced m request k r).agenda =
      (r.agenda.timer m.settings.dedupWindow (.windowElapsed m.id
        (r.updateRegistry (·.add request k)).registry.lastId)).post .announce := rfl
  rw [hform, lastId_adding hm]
  simp only [Agenda.timer, Agenda.post, hrunning, Bool.false_eq_true, if_false]

theorem channels_announced {m : Manager} (hm : r.manager = some m) (request : Request)
    (k : SourceId) :
    (announced m request k r).channels =
      r.channels.modify k (underId · m.id (r.registry.lastId + 1)) := by
  have hform : (announced m request k r).channels =
      r.channels.modify k
        (underId · m.id (r.updateRegistry (·.add request k)).registry.lastId) := rfl
  rw [hform, lastId_adding hm]

theorem channel_announced {m : Manager} (hm : r.manager = some m) {request : Request}
    {k j : SourceId} {c : Channel} (hc : (announced m request k r).channels.get? j = some c) :
    ∃ b, r.channels.get? j = some b ∧
      ((j = k ∧ c = underId b m.id (r.registry.lastId + 1)) ∨ (j ≠ k ∧ c = b)) := by
  rw [channels_announced hm, Roster.get?_modify] at hc
  split at hc
  · rename_i hj
    obtain ⟨b, hb, rfl⟩ := Option.map_eq_some_iff.mp hc
    exact ⟨b, hb, Or.inl ⟨hj, rfl⟩⟩
  · rename_i hj
    exact ⟨c, hc, Or.inr ⟨hj, rfl⟩⟩

theorem tidy_underId {c : Channel} (h : c.Tidy) (m : ManagerId) (id : ConnectionId) :
    (underId c m id).Tidy where
  closing := by
    intro t ht
    rcases List.mem_append.mp ht with ht | ht
    · exact h.closing t ht
    · rw [List.mem_singleton.mp ht]
      rfl
  leaving := by
    intro t ht
    rcases List.mem_append.mp ht with ht | ht
    · exact h.leaving t ht
    · exact Or.inr ⟨m, id, List.mem_singleton.mp ht⟩

theorem Tidy.announced {m : Manager} (hm : r.manager = some m) (h : r.Tidy)
    (hrunning : r.agenda.stopped = false) (request : Request) (k : SourceId) :
    (announced m request k r).Tidy := by
  refine ⟨?_, ?_, ?_, ?_, ?_, ?_⟩
  · intro j c hc
    obtain ⟨b, hb, _⟩ := channel_announced hm hc
    exact h.numbered j b hb
  · intro j c hc
    obtain ⟨b, hb, ⟨_, rfl⟩ | ⟨_, rfl⟩⟩ := channel_announced hm hc
    · exact tidy_underId (h.channels j b hb) m.id (r.registry.lastId + 1)
    · exact h.channels j c hb
  · intro name l hl
    have hhoused := h.housed name l hl
    rw [channels_announced hm, Roster.get?_modify]
    split
    · simpa using hhoused
    · exact hhoused
  · rw [agenda_announced hm hrunning]
    intro t ht j hj
    rcases List.mem_append.mp ht with ht | ht
    · exact h.asked t ht j hj
    · rw [List.mem_singleton.mp ht] at hj
      cases hj
  · rw [agenda_announced hm hrunning]
    intro t ht
    rcases List.mem_append.mp ht with ht | ht
    · exact h.queued t ht
    · rw [List.mem_singleton.mp ht]
      rfl
  · rw [agenda_announced hm hrunning]
    intro t ht
    rcases List.mem_append.mp ht with ht | ht
    · exact h.timed t ht
    · rw [List.mem_singleton.mp ht]
      rfl

theorem opens_announced {m : Manager} (hm : r.manager = some m) (h : r.Tidy)
    (hrunning : r.agenda.stopped = false) (request : Request) (k : SourceId) :
    Opens m k r (announced m request k r) where
  tidy := .announced hm h hrunning request k
  clock := by rw [agenda_announced hm hrunning]
  timers := by rw [agenda_announced hm hrunning]
  running := by rw [agenda_announced hm hrunning]
  nextSource := rfl
  owed := by simp [agenda_announced hm hrunning]
  hung := by
    intro j c hc
    obtain ⟨b, hb, ⟨hj, rfl⟩ | ⟨hj, rfl⟩⟩ := channel_announced hm hc
    · exact ⟨b, hb, fun i id => by simp [underId, hj]⟩
    · exact ⟨c, hb, fun i id => by simp [hj]⟩

end Relay
end MediaRelay
