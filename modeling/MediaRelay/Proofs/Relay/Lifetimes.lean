import MediaRelay.Proofs.Relay.Accounts
import MediaRelay.Proofs.Relay.Joining

/-! # Connections follow their sources

Whatever is under way at a relay, a source is alive exactly as long as a cursor is attached to it,
the registry retains it, or somebody is about to give up a handle on it. When the last handle has
been given up, the closing tasks of the source are posted, each once, and behind the tasks for the
cursors that have left. Once no task is on the way and the thread is idle, a connection whose source
has no cursor is one for which a call is still under way; and when all calls have returned, there is
none, and without listeners nothing is left.
-/
namespace MediaRelay

/-- A cursor is attached to the source. -/
def Relay.Attended (r : Relay) (k : SourceId) : Prop :=
  ∃ c id, r.channels.get? k = some c ∧ (c.feed.source.cursors.get? id).isSome

theorem Relay.attended_iff {r : Relay} (h : r.Seated) (k : SourceId) :
    r.Attended k ↔ r.Heard k := by
  constructor
  · rintro ⟨c, id, hc, hid⟩
    obtain ⟨name, l, hl, hsource, _⟩ := h.manned k c id hc hid
    exact ⟨name, l, hl, hsource⟩
  · rintro ⟨name, l, hl, rfl⟩
    obtain ⟨c, hc, hid⟩ := h.attached name l hl
    exact ⟨c, l.reader.cursor, hc, hid⟩

/-- The errand is about the end of a source, or about a cursor that leaves it. -/
def Errand.concerns (k : SourceId) : Errand → Bool
  | .notify j => j = k
  | .post (.left j) _ => j = k
  | .post (.gone j) _ => j = k
  | .letGo j => j = k
  | .halt j => j = k
  | .await j => j = k
  | .bury j => j = k
  | _ => false

/-- The errands of those who open a source, join one or leave one. -/
def Errand.isCaller : Errand → Bool
  | .notify _ => true
  | .post _ _ => true
  | .join _ _ => true
  | .letGo _ => true
  | .halt _ => true
  | .await _ => true
  | .bury _ => true
  | _ => false

namespace Crew

/-- What an errand needs comes later. -/
def Bonded : List Errand → Prop
  | [] => True
  | e :: rest => (∀ f, e.needs = some f → f ∈ rest) ∧ Bonded rest

variable {m : ManagerId} {x : Crew} {y : Site} {es rest more others : List Errand} {d e f : Errand}

theorem mem_of_bonded (h : Bonded es) (hd : d ∈ es) (hf : d.needs = some f) : f ∈ es := by
  induction es with
  | nil => cases hd
  | cons e rest ih =>
    rcases List.mem_cons.mp hd with rfl | hd
    · exact List.mem_cons_of_mem _ (h.1 f hf)
    · exact List.mem_cons_of_mem _ (ih h.2 hd)

theorem bonded_append (hmore : ∀ e ∈ more, ∀ f, e.needs = some f → f ∈ rest)
    (h : Bonded rest) : Bonded (more ++ rest) := by
  induction more with
  | nil => exact h
  | cons e more ih =>
    refine ⟨fun f hf => List.mem_append_right more (hmore e List.mem_cons_self f hf), ih ?_⟩
    exact fun d hd => hmore d (List.mem_cons_of_mem e hd)

theorem needs_of_do? {x : Site} (hdo : x.do? others e = some (y, more)) (hd : d ∈ more)
    (hf : d.needs = some f) : e.needs = some f := by
  cases e with
  | notify k =>
    cases hdo
    obtain ⟨t, _, rfl⟩ := List.mem_map.mp hd
    exact hf
  | letGo k =>
    simp only [Site.do?, Option.some.injEq] at hdo
    split at hdo
    · cases hdo
      cases hd
    · unfold Site.endSource at hdo
      split at hdo <;> cases hdo
      · cases hd
      · simp only [List.mem_cons, List.not_mem_nil, or_false] at hd
        rcases hd with rfl | rfl | rfl <;> cases hf
  | bury k =>
    cases hdo
    obtain ⟨t, _, rfl⟩ := List.mem_map.mp hd
    cases hf
  | serve t =>
    cases hdo
    cases Relay.follows_of_mem_serve hd with
    | onClose m request k u ht =>
      subst ht
      exact hf
    | onDetach m request k u ht =>
      subst ht
      exact hf
    | _ => cases hf
  | tellAll n =>
    cases hdo
    obtain ⟨s, _, rfl⟩ := List.mem_map.mp hd
    cases hf
  | tell n s =>
    cases hdo
    obtain ⟨_, _, rfl⟩ := Relay.eq_of_mem_telling hd
    cases hf
  | join k name =>
    simp only [Site.do?] at hdo
    split at hdo <;> cases hdo <;> cases hd
  | await k =>
    simp only [Site.do?] at hdo
    split at hdo <;> cases hdo
    cases hd
  | _ =>
    cases hdo
    cases hd

theorem bonded_of_do? {x : Site} (h : Bonded (e :: rest)) (hdo : x.do? others e = some (y, more)) :
    Bonded (more ++ rest) :=
  bonded_append (fun _ hd f hf => h.1 f (needs_of_do? hdo hd hf)) h.2

theorem isCaller_of_do? {x : Site} (he : e.isCaller = true)
    (hdo : x.do? others e = some (y, more)) (hd : d ∈ more) : d.isCaller = true := by
  cases e with
  | notify k =>
    cases hdo
    obtain ⟨t, _, rfl⟩ := List.mem_map.mp hd
    rfl
  | post cause t =>
    cases hdo
    cases hd
  | join k name =>
    simp only [Site.do?] at hdo
    split at hdo <;> cases hdo <;> cases hd
  | letGo k =>
    simp only [Site.do?, Option.some.injEq] at hdo
    split at hdo
    · cases hdo
      cases hd
    · unfold Site.endSource at hdo
      split at hdo <;> cases hdo
      · cases hd
      · simp only [List.mem_cons, List.not_mem_nil, or_false] at hd
        rcases hd with rfl | rfl | rfl <;> rfl
  | halt k =>
    cases hdo
    cases hd
  | await k =>
    simp only [Site.do?] at hdo
    split at hdo <;> cases hdo
    cases hd
  | bury k =>
    cases hdo
    obtain ⟨t, _, rfl⟩ := List.mem_map.mp hd
    rfl
  | _ => cases he

theorem needs_flatten (lists : List (List Errand)) (h : ∀ es ∈ lists, Bonded es)
    (hd : d ∈ lists.flatten) (hf : d.needs = some f) : f ∈ lists.flatten := by
  obtain ⟨es, hes, hd⟩ := List.mem_flatten.mp hd
  exact List.mem_flatten.mpr ⟨es, hes, mem_of_bonded (h es hes) hd hf⟩

theorem exists_set {calls : List (List Errand)} {n : Nat} (h : calls[n]? = some es) :
    ∃ front back, calls = front ++ es :: back ∧
      ∀ fs, calls.set n fs = front ++ fs :: back := by
  obtain ⟨hn, rfl⟩ := List.getElem?_eq_some_iff.mp h
  refine ⟨calls.take n, calls.drop (n + 1), ?_, fun fs => ?_⟩
  · rw [← List.drop_eq_getElem_cons hn, List.take_append_drop]
  · rw [List.set_eq_take_append_cons_drop, if_pos hn]

/-- What holds of a crew all along. -/
structure Sound (m : ManagerId) (x : Crew) : Prop where
  ledger : x.Ledger m x.errands
  accounts : x.Accounts x.errands
  bonded : ∀ es ∈ x.thread :: x.calls, Bonded es
  callers : ∀ es ∈ x.calls, ∀ e ∈ es, e.isCaller = true

namespace Sound

/-! ## The threads go on -/

theorem goOn (h : x.Sound m) : x.goOn.Sound m := by
  unfold Crew.goOn
  cases hthread : x.thread with
  | cons e rest =>
    have hbonded := h.bonded
    rw [hthread] at hbonded
    have hfirst : Bonded (e :: rest) := hbonded _ List.mem_cons_self
    have hcalls : ∀ es ∈ x.calls, Bonded es := fun es hes => hbonded es (List.mem_cons_of_mem _ hes)
    have herrands : x.errands = e :: (rest ++ x.calls.flatten) := by
      rw [errands, hthread]
      rfl
    have hledger := h.ledger
    have haccounts := h.accounts
    rw [herrands] at hledger haccounts
    have hrest : ∀ es ∈ rest :: x.calls, Bonded es := by
      intro es hes
      rcases List.mem_cons.mp hes with rfl | hes
      · exact hfirst.2
      · exact hcalls es hes
    have hneeds : ∀ d ∈ e :: (rest ++ x.calls.flatten), ∀ f, d.needs = some f →
        f ∈ rest ++ x.calls.flatten := by
      intro d hd f hf
      rcases List.mem_cons.mp hd with rfl | hd
      · exact List.mem_append_left _ (hfirst.1 f hf)
      · exact needs_flatten (rest :: x.calls) hrest hd hf
    dsimp only
    cases hdo : x.do? (rest ++ x.calls.flatten) e with
    | none => exact h
    | some p =>
      obtain ⟨y, more⟩ := p
      refine ⟨?_, ?_, ?_, h.callers⟩
      · have hafter := hledger.acts hneeds hdo
        rwa [← List.append_assoc] at hafter
      · have hafter := haccounts.acts hledger (hneeds e List.mem_cons_self) hdo
        rwa [← List.append_assoc] at hafter
      · intro es hes
        rcases List.mem_cons.mp hes with rfl | hes
        · exact bonded_of_do? hfirst hdo
        · exact hcalls es hes
  | nil =>
    dsimp only
    cases hq : x.relay.agenda.queue with
    | nil => exact h
    | cons t queue =>
      have herrands : x.errands = x.calls.flatten := by
        rw [errands, hthread]
        rfl
      have hledger := h.ledger
      have haccounts := h.accounts
      rw [herrands] at hledger haccounts
      have hcomes := hledger.comes_begin (t := t) (hq ▸ List.mem_cons_self)
      have hquiet : Site.Quiet x.toSite { x.toSite with relay := { x.relay with agenda :=
          { x.relay.agenda with queue := queue } } } := Site.quiet_of_channels rfl rfl
      refine ⟨?_, ?_, ?_, h.callers⟩
      · exact (hledger.add _ hcomes).takes hq (List.mem_append_left _ List.mem_cons_self)
      · refine Site.Accounts.add (begin t) (haccounts.same hquiet) ?_
        intro f hf k
        rcases List.mem_cons.mp hf with rfl | hf
        · rfl
        · simp only [List.mem_flatMap, List.mem_cons, List.not_mem_nil, or_false] at hf
          obtain ⟨j, _, rfl | rfl⟩ := hf <;> rfl
      · intro es hes
        rcases List.mem_cons.mp hes with rfl | hes
        · cases hadds : Relay.adds? t with
          | none => simp [begin, Bonded, Errand.needs, hadds]
          | some k => simp [begin, Bonded, Errand.needs, hadds]
        · exact h.bonded es (List.mem_cons_of_mem _ hes)

theorem goOnCall (h : x.Sound m) (n : Nat) : (x.goOnCall n).Sound m := by
  unfold Crew.goOnCall
  split
  · rename_i e rest hn
    obtain ⟨front, back, hcalls, hset⟩ := exists_set hn
    have hfirst : Bonded (e :: rest) :=
      h.bonded _ (List.mem_cons_of_mem _ (List.mem_of_getElem? hn))
    have hothers : ∀ fs, Bonded fs → ∀ es ∈ x.thread :: x.calls.set n fs, Bonded es := by
      intro fs hfs es hes
      rcases List.mem_cons.mp hes with rfl | hes
      · exact h.bonded _ List.mem_cons_self
      · rcases List.mem_or_eq_of_mem_set hes with hes | rfl
        · exact h.bonded es (List.mem_cons_of_mem _ hes)
        · exact hfs
    have hbefore : x.errands.Perm (e :: (x.thread ++ (x.calls.set n rest).flatten)) := by
      rw [errands, hset, hcalls]
      simp only [List.flatten_append, List.flatten_cons, List.cons_append]
      rw [← List.append_assoc, ← List.append_assoc]
      exact List.perm_middle
    have hledger := h.ledger.perm hbefore
    have haccounts := h.accounts.perm hbefore
    have hneeds : ∀ d ∈ e :: (x.thread ++ (x.calls.set n rest).flatten), ∀ f,
        d.needs = some f → f ∈ x.thread ++ (x.calls.set n rest).flatten := by
      intro d hd f hf
      rcases List.mem_cons.mp hd with rfl | hd
      · refine List.mem_append_right _ ?_
        rw [hset]
        simp [hfirst.1 f hf]
      · exact needs_flatten (x.thread :: x.calls.set n rest) (hothers rest hfirst.2) hd hf
    split
    · exact h
    · rename_i y more hdo
      have hafter : (more ++ (x.thread ++ (x.calls.set n rest).flatten)).Perm
          (x.thread ++ (x.calls.set n (more ++ rest)).flatten) := by
        rw [hset, hset]
        simp only [List.flatten_append, List.flatten_cons, List.append_assoc]
        refine (List.perm_append_comm_assoc _ _ _).trans ?_
        exact (List.perm_append_comm_assoc _ _ _).append_left _
      refine ⟨?_, ?_, ?_, ?_⟩
      · exact (hledger.acts hneeds hdo).perm hafter
      · exact (haccounts.acts hledger (hneeds e List.mem_cons_self) hdo).perm hafter
      · exact hothers _ (bonded_of_do? hfirst hdo)
      · have hcall := h.callers _ (List.mem_of_getElem? hn)
        intro es hes d hd
        rcases List.mem_or_eq_of_mem_set hes with hes | rfl
        · exact h.callers es hes d hd
        · rcases List.mem_append.mp hd with hnew | hold
          · exact isCaller_of_do? (hcall e List.mem_cons_self) hdo hnew
          · exact hcall d (List.mem_cons_of_mem e hold)
  · exact h

/-! ## Everything else that happens -/

theorem grows (h : x.Sound m) {y : Site} (hg : Site.Ledger.Grows x.toSite y)
    (hlog : y.log = x.log) : Sound m { x with toSite := y } :=
  ⟨h.ledger.grows hg, h.accounts.same (Site.quiet_of_grows hg hlog), h.bonded, h.callers⟩

theorem touch (h : x.Sound m) {r : Relay} (ht : Relay.Touch x.relay r) :
    Sound m { x with relay := r } :=
  h.grows (h.ledger.grows_of_touch ht) rfl

/-- Sources are touched, those that are fading along with those that are alive. -/
theorem touch_all (h : x.Sound m) (k : SourceId) {g : Channel → Channel} {r : Relay}
    (ht : Relay.Touch x.relay r) (hdetach : ∀ c, (g c).onDetach = c.onDetach)
    (hclose : ∀ c, (g c).onClose = c.onClose) :
    Sound m { x with relay := r, fading := x.fading.modify k g } := by
  have hgrows := h.ledger.grows_of_touch ht
  have hfading := Site.Ledger.sameTasks_modify x.fading k hdetach hclose
  exact h.grows (y := { x.toSite with relay := r, fading := x.fading.modify k g })
    { hgrows with fading := hfading } rfl

theorem calls (h : x.Sound m) {y : Site} (hledger : y.Ledger m (es ++ x.errands))
    (haccounts : y.Accounts x.errands) (hes : ∀ f ∈ es, ∀ k, f.closingOf k = none)
    (hbonded : Bonded es) (hcallers : ∀ e ∈ es, e.isCaller = true) :
    Sound m { x with toSite := y, calls := x.calls ++ [es] } := by
  have hperm : (es ++ x.errands).Perm (x.thread ++ (x.calls ++ [es]).flatten) := by
    rw [List.flatten_append, List.flatten_singleton, ← List.append_assoc]
    exact List.perm_append_comm
  refine ⟨hledger.perm hperm, (haccounts.add _ hes).perm hperm, ?_, ?_⟩
  · intro fs hfs
    rcases List.mem_cons.mp hfs with rfl | hfs
    · exact h.bonded _ List.mem_cons_self
    · rcases List.mem_append.mp hfs with hfs | hfs
      · exact h.bonded _ (List.mem_cons_of_mem _ hfs)
      · rw [List.mem_singleton.mp hfs]
        exact hbonded
  · intro fs hfs
    rcases List.mem_append.mp hfs with hfs | hfs
    · exact h.callers fs hfs
    · rw [List.mem_singleton.mp hfs]
      exact hcallers

theorem bonded_join (k : SourceId) (name : String) : Bonded [.join k name, .letGo k] := by
  simp [Bonded, Errand.needs]

theorem openReader (h : x.Sound m) (name : String) (z : Sizing) (i : Input) :
    (x.make (.openReader name z i)).Sound m := by
  have hopens := h.ledger.opens z i
  have hjoins := hopens.add [.join x.relay.nextSource name] fun e he => by
    rw [List.mem_singleton.mp he]
    exact {}
  refine h.calls (y := { x.toSite with relay := (x.relay.openSource z i false).2 }) hjoins
    (h.accounts.opens z i) ?_ (bonded_join _ name) ?_
  · simp [Errand.closingOf]
  · simp [Errand.isCaller]

theorem tryAttach (h : x.Sound m) (request : Request) (name : String) :
    (x.make (.tryAttach request name)).Sound m := by
  simp only [make]
  split
  · exact h
  · rename_i id k hk
    refine h.calls (y := x.toSite) (h.ledger.add _ ?_) h.accounts ?_ (bonded_join k name) ?_
    · intro e he
      simp only [List.mem_cons, List.not_mem_nil, or_false] at he
      rcases he with rfl | rfl
      · exact {}
      · refine { held := ?_ }
        rintro j ⟨⟩
        have hretained := (Registry.foremost_of_candidate? hk).1.2
        exact (h.ledger.alive k).mpr (Or.inr (Or.inl ⟨id, hretained⟩))
    · simp [Errand.closingOf]
    · simp [Errand.isCaller]

theorem leave (h : x.Sound m) (name : String) : (x.make (.leave name)).Sound m := by
  simp only [make]
  cases hl : x.relay.listeners.get? name with
  | none => exact h
  | some l =>
    dsimp only
    split
    · rename_i hmay
      rw [mayLeave, Bool.and_eq_true, Bool.or_eq_true, Bool.not_eq_true', List.any_eq_true] at hmay
      obtain ⟨hasked, hanswers⟩ := hmay
      have hothers : .answer l.source ∈ x.errands → ∃ i o, i ≠ name ∧
          x.relay.listeners.get? i = some o ∧ o.source = l.source := by
        intro hmem
        rcases hanswers with hnone | ⟨o, ho, hsource⟩
        · exact absurd (List.any_eq_false.mp hnone _ hmem) (by simp [Errand.answers])
        · obtain ⟨i, hi⟩ := (Roster.mem_values_iff _ o).mp ho
          rw [Roster.get?_erase, Option.ite_none_left_eq_some] at hi
          exact ⟨i, o, hi.1, hi.2, of_decide_eq_true hsource⟩
      obtain ⟨c, d, hleft⟩ := Relay.exists_left h.ledger.seated hl
      have hchannels := Relay.isSome_channel_iff hleft.channels hleft.before
      have hquiet : Site.Quiet x.toSite { x.toSite with relay := x.relay.detached name l } := by
        refine ⟨rfl, hleft.nextSource, fun k => ?_, fun _ => rfl⟩
        rw [← Option.not_isSome_iff_eq_none, hchannels, Option.not_isSome_iff_eq_none]
      refine h.calls (y := { x.toSite with relay := x.relay.detached name l })
        (h.ledger.leaves hl hasked hothers) (h.accounts.same hquiet) ?_ ?_ ?_
      · simp [Errand.closingOf]
      · simp [Bonded, Errand.needs]
      · simp [Errand.isCaller]
    · exact h

theorem fire (h : x.Sound m) (n : Nat) : (x.make (.fire n)).Sound m := by
  simp only [make]
  split
  · rename_i t hthread ht
    have hmem := List.mem_of_getElem? ht
    have herrands : x.errands = x.calls.flatten := by
      rw [errands, hthread]
      rfl
    have haside : Site.Ledger.Aside x.relay { x.relay with agenda := { x.relay.agenda with
        timers := x.relay.agenda.timers.eraseIdx n
        clock := max x.relay.agenda.clock t.due } } := .of_manager rfl rfl rfl rfl
    have hgrows := haside.grows h.ledger.seated rfl (fun _ hu => hu) (fun _ hu => Or.inl hu)
      (fun u hu => Or.inl (List.mem_of_mem_eraseIdx hu)) x.fading x.log x.log
    obtain ⟨hledger, haccounts, hbonded, _⟩ := h.grows hgrows rfl
    have hserve : ∀ e ∈ [Errand.serve t.task], e = .serve t.task := fun _ => List.mem_singleton.mp
    refine ⟨?_, ?_, ?_, h.callers⟩
    · have hadded := hledger.add [.serve t.task] fun e he => by
        rw [hserve e he]
        exact {}
      rwa [errands, hthread] at hadded
    · have hadded := haccounts.add [.serve t.task] fun e he k => by
        rw [hserve e he]
        rfl
      rwa [errands, hthread] at hadded
    · intro es hes
      rcases List.mem_cons.mp hes with rfl | hes
      · simp [Bonded, Errand.needs, h.ledger.timed t hmem]
      · exact hbonded es (List.mem_cons_of_mem _ hes)
  · exact h

theorem make (h : x.Sound m) (v : Stroke) : (x.make v).Sound m := by
  cases v with
  | openReader name z i => exact h.openReader name z i
  | attach other name => exact h.touch (.attach x.relay other name)
  | tryAttach request name => exact h.tryAttach request name
  | call name call => exact h.touch (.call x.relay name call)
  | leave name => exact h.leave name
  | produce k => exact h.touch_all k (.produce x.relay k) (fun _ => rfl) fun _ => rfl
  | feed k items => exact h.touch_all k (.feed x.relay k items) (fun _ => rfl) fun _ => rfl
  | onClose k tag => exact h.touch (.onClose x.relay k rfl)
  | onDetach k tag => exact h.touch (.onDetach x.relay k rfl)
  | add name request => exact h.touch (.add x.relay name request)
  | remove id => exact h.touch (.command x.relay (t := fun i => .remove i id) fun _ => rfl)
  | close => exact h.touch (.command x.relay (t := .close) fun _ => rfl)
  | subscribe s => exact h.touch (.command x.relay (t := fun i => .subscribe i s) fun _ => rfl)
  | unsubscribe id =>
    exact h.touch (.command x.relay (t := fun i => .unsubscribe i id) fun _ => rfl)
  | subscriptions all => exact h.touch (.subscriptions x.relay all)
  | thread => exact h.goOn
  | caller n => exact h.goOnCall n
  | fire n => exact h.fire n

theorem run (c : Settings) (catalog : Catalog) (strokes : List Stroke) :
    (Crew.run c catalog strokes).Sound 0 := by
  have hstart : Sound 0 { relay := ({} : Relay).makeManager c catalog } := by
    refine ⟨?_, ?_, ?_, ?_⟩
    · constructor <;>
        simp [Relay.makeManager, Relay.dropManager, Relay.enter, Relay.registry, Registry.empty,
          errands, Relay.Heard, Relay.Retained]
      constructor <;> simp
    · constructor <;>
        simp [Relay.makeManager, Relay.dropManager, Relay.enter, errands]
    · simp [Bonded]
    · exact fun es hes => absurd hes List.not_mem_nil
  have hall : ∀ (vs : List Stroke) (x : Crew), x.Sound 0 → (vs.foldl Crew.make x).Sound 0 := by
    intro vs
    induction vs with
    | nil => exact fun _ hx => hx
    | cons v rest ih => exact fun x hx => ih _ (hx.make v)
  exact hall strokes _ hstart

/-! ## What follows -/

theorem alive_iff (h : x.Sound m) (k : SourceId) : (x.relay.channels.get? k).isSome ↔
    x.relay.Attended k ∨ x.relay.Retained k ∨ .letGo k ∈ x.errands := by
  rw [h.ledger.alive, Relay.attended_iff h.ledger.seated]

/-- Once nothing about a source is under way, all its closing tasks have been posted. -/
theorem posted_of_unconcerned (h : x.Sound m) {k : SourceId} {ts : List Task}
    (hk : .ended k ts ∈ x.log) (hnone : ∀ e ∈ x.errands, e.concerns k = false) :
    (x.log.filterMap (Record.closingOf k)).Perm ts := by
  have hsettled := h.accounts.settled k ts hk
  have howed : x.errands.filterMap (Errand.closingOf k) = [] := by
    refine List.filterMap_eq_nil_iff.mpr fun e he => ?_
    unfold Errand.closingOf
    split
    · exact if_neg (of_decide_eq_false (hnone _ he))
    · rfl
  have hclosing : x.closing k = [] := by
    cases hc : x.fading.get? k with
    | none => simp [Site.closing, hc]
    | some c =>
      have hbury := hnone _ (h.ledger.faded k (by simp [hc])).2.2
      simp [Errand.concerns] at hbury
  rwa [howed, hclosing, List.append_nil, List.append_nil] at hsettled

/-- While the thread is idle, all errands are those of callers. -/
theorem caller_of_idle (h : x.Sound m) (hthread : x.thread = []) (he : e ∈ x.errands) :
    e ∈ x.calls.flatten ∧ e.isCaller = true := by
  rw [errands, hthread, List.nil_append] at he
  obtain ⟨es, hes, hmem⟩ := List.mem_flatten.mp he
  exact ⟨he, h.callers es hes e hmem⟩

/-- With no task on the way, what the registry retains has a listener, or one that is leaving. -/
theorem attended_of_retained (h : x.Sound m) (hqueue : x.relay.agenda.queue = [])
    (hthread : x.thread = []) {k : SourceId} (hk : x.relay.Retained k) :
    x.relay.Attended k ∨ ∃ e ∈ x.calls.flatten, e.concerns k = true := by
  obtain ⟨id, hid⟩ := hk
  rw [Relay.attended_iff h.ledger.seated]
  rcases h.ledger.left id k hid with hheard | hnotify | hpost | hserve | hway
  · exact Or.inl hheard
  · exact Or.inr ⟨_, (h.caller_of_idle hthread hnotify).1, by simp [Errand.concerns]⟩
  · exact Or.inr ⟨_, (h.caller_of_idle hthread hpost).1, by simp [Errand.concerns]⟩
  · cases (h.caller_of_idle hthread hserve).2
  · rw [hqueue] at hway
    cases hway

theorem attended_of_listed (h : x.Sound m) (hqueue : x.relay.agenda.queue = [])
    (hthread : x.thread = []) {id : ConnectionId} {n : Connection}
    (hn : x.relay.registry.connections.get? id = some n) :
    x.relay.Attended n.source ∨ ∃ e ∈ x.calls.flatten, e.concerns n.source = true := by
  rcases h.ledger.listed id n hn with hpending | ⟨c, hc | hc, _⟩ | hpost | hserve | hway
  · cases (h.caller_of_idle hthread hpending).2
  · rcases (h.alive_iff n.source).mp (by simp [hc]) with hattended | hretained | hgo
    · exact Or.inl hattended
    · exact h.attended_of_retained hqueue hthread hretained
    · exact Or.inr ⟨_, (h.caller_of_idle hthread hgo).1, by simp [Errand.concerns]⟩
  · have hbury := (h.ledger.faded n.source (by simp [hc])).2.2
    exact Or.inr ⟨_, (h.caller_of_idle hthread hbury).1, by simp [Errand.concerns]⟩
  · exact Or.inr ⟨_, (h.caller_of_idle hthread hpost).1, by simp [Errand.concerns]⟩
  · cases (h.caller_of_idle hthread hserve).2
  · rw [hqueue] at hway
    cases hway

/-- Without tasks, calls under way and listeners nothing is left. -/
theorem empty (h : x.Sound m) (hqueue : x.relay.agenda.queue = []) (hidle : x.errands = [])
    (hlisteners : x.relay.listeners.size = 0) :
    x.relay.registry.connections.size = 0 ∧ x.relay.registry.retained.size = 0 ∧
      x.relay.channels.size = 0 ∧ x.fading.size = 0 := by
  obtain ⟨hthread, hcalls⟩ := List.append_eq_nil_iff.mp hidle
  have hdeaf : ∀ k, ¬x.relay.Attended k := by
    intro k hk
    obtain ⟨name, l, hl, _⟩ := (Relay.attended_iff h.ledger.seated k).mp hk
    rw [(x.relay.listeners.size_eq_zero_iff).mp hlisteners name] at hl
    cases hl
  have hnobody : ∀ k, ¬(x.relay.Attended k ∨ ∃ e ∈ x.calls.flatten, e.concerns k = true) := by
    rintro k (hk | ⟨e, he, _⟩)
    · exact hdeaf k hk
    · rw [hcalls] at he
      cases he
  have hretained : ∀ k, ¬x.relay.Retained k := fun k hk =>
    hnobody k (h.attended_of_retained hqueue hthread hk)
  refine ⟨?_, ?_, ?_, ?_⟩
  · refine (x.relay.registry.connections.size_eq_zero_iff).mpr fun id => ?_
    exact Option.eq_none_iff_forall_ne_some.mpr fun n hn =>
      hnobody n.source (h.attended_of_listed hqueue hthread hn)
  · refine (x.relay.registry.retained.size_eq_zero_iff).mpr fun id => ?_
    exact Option.eq_none_iff_forall_ne_some.mpr fun k hk => hretained k ⟨id, hk⟩
  · refine (x.relay.channels.size_eq_zero_iff).mpr fun k => ?_
    refine Option.eq_none_iff_forall_ne_some.mpr fun c hc => ?_
    rcases (h.alive_iff k).mp (by simp [hc]) with hattended | hheld | hgo
    · exact hdeaf k hattended
    · exact hretained k hheld
    · rw [hidle] at hgo
      cases hgo
  · refine (x.fading.size_eq_zero_iff).mpr fun k => ?_
    refine Option.eq_none_iff_forall_ne_some.mpr fun c hc => ?_
    have hbury := (h.ledger.faded k (by simp [hc])).2.2
    rw [hidle] at hbury
    cases hbury

end Sound

/-- Whoever has something to do can do it, unless it is to wait for the read of a source that is
fading. -/
theorem do?_eq_none_iff (x : Site) (others : List Errand) (e : Errand) : x.do? others e = none ↔
    ∃ k c, e = .await k ∧ x.fading.get? k = some c ∧ c.feed.source.reserved.isSome = true := by
  constructor
  · intro hnone
    cases e with
    | await k =>
      simp only [Site.do?, ite_eq_left_iff, reduceCtorEq, imp_false, Classical.not_not] at hnone
      obtain ⟨c, hc, hread⟩ := (Option.any_eq_true _ _).mp hnone
      exact ⟨k, c, rfl, hc, hread⟩
    | join k name =>
      simp only [Site.do?] at hnone
      split at hnone <;> cases hnone
    | _ => cases hnone
  · rintro ⟨k, c, rfl, hc, hread⟩
    simp [Site.do?, hc, hread]

/-- After any strokes: a source is alive exactly if a cursor is attached to it, the registry retains
it, or somebody is about to give up a handle on it. Its closing tasks are posted after its end, each
once, and behind all that is posted for the cursors that have left it; and once nothing about it is
under way, they have been posted. With no task on the way and the thread idle, a connection has a
source with a cursor, or one for which a call is under way; with no call under way, it has a source
with a cursor, and without listeners nothing is left. Whoever is to do something can do it, unless
it waits for a read. -/
theorem connections_follow_sources (c : Settings) (catalog : Catalog) (strokes : List Stroke) :
    let x := run c catalog strokes
    (∀ k, (x.relay.channels.get? k).isSome ↔
        x.relay.Attended k ∨ x.relay.Retained k ∨ .letGo k ∈ x.errands) ∧
      (∀ k, (∃ ts, .ended k ts ∈ x.log) ↔
        k < x.relay.nextSource ∧ x.relay.channels.get? k = none) ∧
      x.log.Pairwise Record.MayPrecede ∧
      (∀ k ts, .ended k ts ∈ x.log →
        (x.log.filterMap (Record.closingOf k) ++ (x.errands.filterMap (Errand.closingOf k) ++
          x.closing k)).Perm ts ∧
        ((∀ e ∈ x.errands, e.concerns k = false) →
          (x.log.filterMap (Record.closingOf k)).Perm ts)) ∧
      (x.relay.agenda.queue = [] → x.thread = [] →
        ∀ id n, x.relay.registry.connections.get? id = some n →
          x.relay.Attended n.source ∨ ∃ e ∈ x.calls.flatten, e.concerns n.source = true) ∧
      (x.relay.agenda.queue = [] → x.errands = [] →
        (∀ id n, x.relay.registry.connections.get? id = some n → x.relay.Attended n.source) ∧
        (x.relay.listeners.size = 0 → x.relay.registry.connections.size = 0 ∧
          x.relay.registry.retained.size = 0 ∧ x.relay.channels.size = 0 ∧ x.fading.size = 0)) ∧
      (∀ others e, x.do? others e = none → ∃ k c, e = .await k ∧ x.fading.get? k = some c ∧
        c.feed.source.reserved.isSome = true) := by
  intro x
  have h : x.Sound 0 := .run c catalog strokes
  refine ⟨h.alive_iff, h.accounts.ended, h.accounts.order, ?_, ?_, ?_, ?_⟩
  · exact fun k ts hk => ⟨h.accounts.settled k ts hk, h.posted_of_unconcerned hk⟩
  · exact fun hqueue hthread _ _ hn => h.attended_of_listed hqueue hthread hn
  · refine fun hqueue hidle => ⟨fun id n hn => ?_, h.empty hqueue hidle⟩
    obtain ⟨hthread, hcalls⟩ := List.append_eq_nil_iff.mp hidle
    refine (h.attended_of_listed hqueue hthread hn).resolve_right ?_
    rintro ⟨e, he, _⟩
    rw [hcalls] at he
    cases he
  · exact fun others e => (do?_eq_none_iff x.toSite others e).mp

/-- The only listener of a listed source, whose producer sits in a read, leaves; the thread has done
all its tasks before the listener gives up its handle. The connection is listed then with a source
that has no cursor and is not retained, and goes on being listed while the listener waits for the
read. -/
theorem listed_without_cursor :
    let before := run {} {} ([.openReader "a" {} { gated := true }, .caller 0, .caller 0,
      .add "a" ⟨{}, "m", "e", ""⟩] ++ List.replicate 11 .thread ++ [.produce 0, .leave "a",
      .caller 1, .caller 1] ++ List.replicate 3 .thread)
    let after := [.caller 1, .caller 1, .caller 1].foldl make before
    before.relay.agenda.queue.length = 0 ∧ before.thread.length = 0 ∧
      (before.relay.registry.connections.get? 1).map Connection.source = some 0 ∧
      (before.relay.channels.get? 0).map (fun c => c.feed.source.cursors.size) = some 0 ∧
      before.relay.registry.retained.size = 0 ∧
      after.relay.agenda.queue.length = 0 ∧ after.thread.length = 0 ∧
      (after.relay.registry.connections.get? 1).map Connection.source = some 0 ∧
      (after.relay.channels.get? 0).isNone = true ∧ after.calls.map List.length = [0, 2] := by
  decide +kernel

end Crew
end MediaRelay
