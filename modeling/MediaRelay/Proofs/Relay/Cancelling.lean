import MediaRelay.Proofs.Relay.Counts
import MediaRelay.Proofs.Relay.Rounds

/-! # Cancelled subscriptions

A round goes to those who are subscribed when it begins, each once and in order, even to one whose
subscription is cancelled meanwhile. So a subscription that is cancelled while a round is under way
may still be told in this round, but in none that begins later, and one that is cancelled by nobody
who is being told is not told any more.
-/
namespace MediaRelay.Delivery

namespace Report

/-- The subscription that is told something in this round. -/
def toldIn? (round : Nat) : Report → Option SubscriberId
  | .told i id => if i = round then some id else none
  | _ => none

end Report

def toldIn (round : Nat) (log : List Report) : List SubscriberId :=
  log.filterMap (Report.toldIn? round)

/-- Subscribed, and not cancelled since. -/
def Alive (log : List Report) (id : SubscriberId) : Prop :=
  .subscribed id ∈ log ∧ ∀ inside, .cancelled id inside ∉ log

def Open (log : List Report) (round : Nat) : Prop :=
  (∃ size all, .began round size all ∈ log) ∧ .ended round ∉ log

/-- What may be reported after a log. -/
def Fits (log : List Report) : Report → Prop
  | .subscribed id => .subscribed id ∉ log
  | .cancelled id inside => Alive log id ∧ (inside = false → ∀ round, ¬Open log round)
  | .began i _ all => all.Nodup ∧ (∀ id, id ∈ all ↔ Alive log id) ∧
      ∀ size others, .began i size others ∉ log
  | .told i id => Open log i ∧ ∃ size all, .began i size all ∈ log ∧ id ∈ all
  | .ended i => Open log i

/-- Each report fits what has been reported before. -/
def Orderly (log : List Report) : Prop :=
  ∀ before r after, log = before ++ r :: after → Fits before r

theorem orderly_nil : Orderly [] := by
  intro before r after h
  simp at h

theorem Orderly.add {log : List Report} (h : Orderly log) {r : Report} (hr : Fits log r) :
    Orderly (log ++ [r]) := by
  intro before u after he
  rcases List.append_eq_append_iff.mp he with ⟨more, hbefore, hmore⟩ | ⟨more, hlog, hmore⟩
  · cases more with
    | nil =>
      simp only [List.nil_append, List.cons.injEq] at hmore
      rw [hbefore, List.append_nil, ← hmore.1]
      exact hr
    | cons v rest => simp at hmore
  · cases more with
    | nil =>
      simp only [List.nil_append, List.cons.injEq] at hmore
      rw [List.append_nil] at hlog
      rw [← hlog, hmore.1]
      exact hr
    | cons v rest =>
      simp only [List.cons_append, List.cons.injEq] at hmore
      exact h before u rest (by rw [hlog, hmore.1])

theorem Orderly.unique {log : List Report} (h : Orderly log) {i n m : Nat}
    {all others : List SubscriberId} (hall : .began i n all ∈ log)
    (hothers : .began i m others ∈ log) : all = others := by
  obtain ⟨before, after, rfl⟩ := List.append_of_mem hall
  rcases List.mem_append.mp hothers with hbefore | hrest
  · exact absurd hbefore ((h before _ after rfl).2.2 m others)
  · rcases List.mem_cons.mp hrest with he | hafter
    · cases he
      rfl
    · obtain ⟨middle, late, rfl⟩ := List.append_of_mem hafter
      have hlate := h (before ++ .began i n all :: middle) (.began i m others) late (by simp)
      exact absurd (by simp) (hlate.2.2 n all)

theorem Orderly.began_of_ended {log : List Report} (h : Orderly log) {i : Nat}
    (hi : .ended i ∈ log) : ∃ n all, .began i n all ∈ log := by
  obtain ⟨before, after, rfl⟩ := List.append_of_mem hi
  obtain ⟨⟨n, all, hbegan⟩, _⟩ := h before _ after rfl
  exact ⟨n, all, List.mem_append_left _ hbegan⟩

theorem Orderly.untold {log : List Report} (h : Orderly log) {i : Nat}
    (hi : ∀ n all, .began i n all ∉ log) : toldIn i log = [] := by
  refine List.filterMap_eq_nil_iff.mpr fun r hr => ?_
  cases r with
  | told j id =>
    refine if_neg fun hj => ?_
    obtain ⟨before, after, rfl⟩ := List.append_of_mem hr
    obtain ⟨⟨⟨n, all, hbegan⟩, _⟩, _⟩ := h before _ after rfl
    exact hi n all (List.mem_append_left _ (hj ▸ hbegan))
  | _ => rfl

/-! ## Deliveries and their logs -/

/-- The log tells who is subscribed, which rounds are under way and who is left in them. -/
structure Sound (x : Delivery) : Prop where
  orderly : Orderly x.log
  issued : ∀ id, .subscribed id ∈ x.log → id < x.relay.registry.nextSubscriber
  present : ∀ id, id ∈ x.relay.registry.subscribers.ids ↔ Alive x.log id
  fresh : ∀ i n all, .began i n all ∈ x.log → i < x.begun
  underway : ∀ i, Open x.log i ↔ ∃ k ∈ x.rounds, k.index = i
  distinct : (x.rounds.map Round.index).Nodup
  left : ∀ k ∈ x.rounds, ∃ all, .began k.index k.size all ∈ x.log ∧
    toldIn k.index x.log ++ k.left.map Prod.fst = all
  complete : ∀ i n all, .began i n all ∈ x.log → .ended i ∈ x.log → toldIn i x.log = all

variable {x : Delivery} {r : Relay}

theorem sound_start (c : Settings) (catalog : Catalog) : Sound (run c catalog []) where
  orderly := orderly_nil
  issued := fun _ h => nomatch h
  present := by
    intro id
    constructor
    · exact fun h => nomatch h
    · exact fun h => nomatch h.1
  fresh := fun _ _ _ h => nomatch h
  underway := by
    intro i
    constructor
    · rintro ⟨⟨n, all, hbegan⟩, _⟩
      cases hbegan
    · rintro ⟨k, hk, _⟩
      cases hk
  distinct := List.nodup_nil
  left := fun _ h => nomatch h
  complete := fun _ _ _ h => nomatch h

/-- The same are subscribed. -/
structure Alike (r s : Relay) : Prop where
  subscribers : s.registry.subscribers = r.registry.subscribers
  nextSubscriber : s.registry.nextSubscriber = r.registry.nextSubscriber

theorem Alike.of_eq {r s : Relay} (h : s.manager = r.manager) : Alike r s := by
  have hregistry : s.registry = r.registry := by rw [Relay.registry, Relay.registry, h]
  exact ⟨by rw [hregistry], by rw [hregistry]⟩

theorem Alike.of_registry {r s : Relay} {g : Registry} (h : s.registry = g)
    (hsubscribers : g.subscribers = r.registry.subscribers)
    (hnext : g.nextSubscriber = r.registry.nextSubscriber) : Alike r s :=
  ⟨by rw [h, hsubscribers], by rw [h, hnext]⟩

theorem Sound.alike (h : x.Sound) (hr : Alike x.relay r) : Sound { x with relay := r } :=
  { h with
    issued := fun id hid => hr.nextSubscriber ▸ h.issued id hid
    present := fun id => by rw [← h.present id, ← hr.subscribers] }

theorem toldIn_append (i : Nat) (log new : List Report) :
    toldIn i (log ++ new) = toldIn i log ++ toldIn i new := List.filterMap_append

theorem Sound.report (h : x.Sound) {u : Report} (hu : Fits x.log u)
    (hbegan : ∀ i n all, u ≠ .began i n all) (hended : ∀ i, u ≠ .ended i)
    (htold : ∀ i, toldIn i [u] = [])
    (hissued : ∀ id, .subscribed id ∈ x.log ++ [u] → id < r.registry.nextSubscriber)
    (hpresent : ∀ id, id ∈ r.registry.subscribers.ids ↔ Alive (x.log ++ [u]) id) :
    Sound { x with relay := r, log := x.log ++ [u] } := by
  have hrounds : ∀ i n all, Report.began i n all ∈ x.log ++ [u] ↔ .began i n all ∈ x.log := by
    intro i n all
    rw [List.mem_append, List.mem_singleton, or_iff_left (hbegan i n all).symm]
  have hover : ∀ i, Report.ended i ∈ x.log ++ [u] ↔ .ended i ∈ x.log := by
    intro i
    rw [List.mem_append, List.mem_singleton, or_iff_left (hended i).symm]
  have hsame : ∀ i, toldIn i (x.log ++ [u]) = toldIn i x.log := by
    intro i
    rw [toldIn_append, htold, List.append_nil]
  refine
    { orderly := h.orderly.add hu
      issued := hissued
      present := hpresent
      fresh := fun i n all hi => h.fresh i n all ((hrounds i n all).mp hi)
      underway := ?_
      distinct := h.distinct
      left := ?_
      complete := ?_ }
  · intro i
    simp only [Open, hrounds, hover]
    exact h.underway i
  · intro k hk
    obtain ⟨all, hall, hleft⟩ := h.left k hk
    exact ⟨all, (hrounds _ _ _).mpr hall, by rw [hsame]; exact hleft⟩
  · intro i n all hi he
    rw [hsame]
    exact h.complete i n all ((hrounds i n all).mp hi) ((hover i).mp he)

theorem Sound.subscribe (h : x.Sound) {m : ManagerId} (hm : x.relay.isManagedBy m = true)
    (s : Subscriber) :
    Sound
      { x with
        relay := x.relay.updateRegistry (·.subscribe s)
        log := x.log ++ [.subscribed x.relay.registry.nextSubscriber] } := by
  obtain ⟨manager, hmanager, _⟩ := Relay.exists_manager_of_managed hm
  have hregistry := Relay.registry_updateRegistry hmanager (·.subscribe s)
  have hnew : Report.subscribed x.relay.registry.nextSubscriber ∉ x.log :=
    fun hmem => Nat.lt_irrefl _ (h.issued _ hmem)
  refine h.report hnew (by simp) (by simp) (fun _ => rfl) ?_ ?_
  · intro id hid
    rw [hregistry]
    change id < x.relay.registry.nextSubscriber + 1
    rcases List.mem_append.mp hid with hid | hid
    · exact Nat.lt_succ_of_lt (h.issued id hid)
    · cases List.mem_singleton.mp hid
      exact Nat.lt_succ_self _
  · intro id
    rw [hregistry, Registry.subscribe, Roster.ids_put, List.mem_append, List.mem_filter,
      List.mem_singleton, h.present id]
    simp only [Alive, List.mem_append, List.mem_singleton, Report.subscribed.injEq, reduceCtorEq,
      or_false]
    constructor
    · rintro (⟨hid, _⟩ | rfl)
      · exact ⟨Or.inl hid.1, hid.2⟩
      · refine ⟨Or.inr rfl, fun inside hmem => ?_⟩
        obtain ⟨before, after, hlog⟩ := List.append_of_mem hmem
        have hfits := h.orderly before _ after hlog
        exact hnew (hlog ▸ List.mem_append_left _ hfits.1.1)
    · rintro ⟨hid | hid, hkept⟩
      · have hold : id ≠ x.relay.registry.nextSubscriber := fun he => hnew (he ▸ hid)
        exact Or.inl ⟨⟨hid, hkept⟩, by simpa using hold⟩
      · exact Or.inr hid

theorem Sound.unsubscribe (h : x.Sound) {id : SubscriberId}
    (hid : x.relay.registry.subscribers.contains id = true) {inside : Bool}
    (hinside : inside = false → x.rounds = []) :
    Sound
      { x with
        relay := x.relay.updateRegistry (·.unsubscribe id)
        log := x.log ++ [.cancelled id inside] } := by
  have hregistry : (x.relay.updateRegistry (·.unsubscribe id)).registry =
      x.relay.registry.unsubscribe id := by
    cases hm : x.relay.manager with
    | none =>
      rw [Relay.registry_of_none hm] at hid
      cases hid
    | some m => exact Relay.registry_updateRegistry hm _
  have halive : Alive x.log id :=
    (h.present id).mp ((x.relay.registry.subscribers.mem_ids_iff id).mpr hid)
  have hfits : Fits x.log (.cancelled id inside) := by
    refine ⟨halive, fun hin i hopen => ?_⟩
    obtain ⟨k, hk, _⟩ := (h.underway i).mp hopen
    rw [hinside hin] at hk
    cases hk
  refine h.report hfits (by simp) (by simp) (fun _ => rfl) ?_ ?_
  · intro i hi
    rw [hregistry]
    rcases List.mem_append.mp hi with hi | hi
    · exact h.issued i hi
    · cases List.mem_singleton.mp hi
  · intro i
    rw [hregistry, Registry.unsubscribe, Roster.ids_erase, List.mem_filter, h.present i]
    simp only [Alive, List.mem_append, List.mem_singleton, reduceCtorEq, or_false,
      Report.cancelled.injEq]
    constructor
    · rintro ⟨hi, hne⟩
      refine ⟨hi.1, fun b hmem => ?_⟩
      rcases hmem with hmem | ⟨rfl, _⟩
      · exact hi.2 b hmem
      · simp at hne
    · rintro ⟨hi, hkept⟩
      refine ⟨⟨hi, fun b hmem => hkept b (Or.inl hmem)⟩, ?_⟩
      have hne : i ≠ id := fun he => hkept inside (Or.inr ⟨he, rfl⟩)
      simpa using hne

/-! ## One round -/

theorem open_began {log : List Report} {i n : Nat} {all : List SubscriberId}
    (hunended : .ended i ∉ log) {j : Nat} :
    Open (log ++ [.began i n all]) j ↔ i = j ∨ Open log j := by
  constructor
  · rintro ⟨⟨m, others, hj⟩, he⟩
    simp only [List.mem_append, List.mem_singleton, Report.began.injEq, reduceCtorEq, or_false]
      at hj he
    rcases hj with hj | ⟨rfl, _⟩
    · exact Or.inr ⟨⟨m, others, hj⟩, he⟩
    · exact Or.inl rfl
  · rintro (rfl | ⟨⟨m, others, hj⟩, he⟩)
    · exact ⟨⟨n, all, by simp⟩, by simpa using hunended⟩
    · exact ⟨⟨m, others, List.mem_append_left _ hj⟩, by simpa using he⟩

theorem open_ended {log : List Report} {i j : Nat} :
    Open (log ++ [.ended i]) j ↔ Open log j ∧ j ≠ i := by
  simp only [Open, List.mem_append, List.mem_singleton, reduceCtorEq, or_false,
    Report.ended.injEq, not_or, and_assoc, ne_eq]

theorem Sound.begin (h : x.Sound) (hr : Alike x.relay r) (n : Nat) :
    Sound
      { relay := r
        rounds := ⟨x.begun, n, r.registry.subscribers.entries⟩ :: x.rounds
        begun := x.begun + 1
        log := x.log ++ [.began x.begun n r.registry.subscribers.ids] } := by
  -- The round has a number that no round has had, so nobody has been told anything in it.
  have hnew : ∀ m all, .began x.begun m all ∉ x.log :=
    fun m all hmem => Nat.lt_irrefl _ (h.fresh _ m all hmem)
  have huntold : toldIn x.begun x.log = [] := h.orderly.untold hnew
  have hunended : .ended x.begun ∉ x.log := by
    intro hmem
    obtain ⟨m, all, hbegan⟩ := h.orderly.began_of_ended hmem
    exact hnew m all hbegan
  have hsame : ∀ i, toldIn i (x.log ++ [.began x.begun n r.registry.subscribers.ids]) =
      toldIn i x.log := by
    intro i
    rw [toldIn_append]
    exact List.append_nil _
  have hids : ∀ id, id ∈ r.registry.subscribers.ids ↔ Alive x.log id := by
    intro id
    rw [hr.subscribers]
    exact h.present id
  refine
    { orderly := h.orderly.add ⟨r.registry.subscribers.nodup_ids, hids, hnew⟩
      issued := ?_
      present := ?_
      fresh := ?_
      underway := ?_
      distinct := ?_
      left := ?_
      complete := ?_ }
  · intro id hid
    rw [hr.nextSubscriber]
    simp only [List.mem_append, List.mem_singleton, reduceCtorEq, or_false] at hid
    exact h.issued id hid
  · intro id
    rw [hids]
    simp [Alive]
  · intro i m all hi
    simp only [List.mem_append, List.mem_singleton, Report.began.injEq] at hi
    rcases hi with hi | ⟨rfl, _⟩
    · exact Nat.lt_succ_of_lt (h.fresh i m all hi)
    · exact Nat.lt_succ_self _
  · intro i
    rw [open_began hunended, h.underway]
    simp only [List.mem_cons, exists_eq_or_imp]
  · rw [List.map_cons, List.nodup_cons]
    refine ⟨fun hmem => ?_, h.distinct⟩
    obtain ⟨k, hk, hindex⟩ := List.mem_map.mp hmem
    obtain ⟨all, hall, _⟩ := h.left k hk
    exact hnew _ all (hindex ▸ hall)
  · intro k hk
    rcases List.mem_cons.mp hk with rfl | hk
    · refine ⟨r.registry.subscribers.ids, by simp, ?_⟩
      rw [hsame, huntold]
      rfl
    · obtain ⟨all, hall, hleft⟩ := h.left k hk
      exact ⟨all, List.mem_append_left _ hall, by rw [hsame]; exact hleft⟩
  · intro i m all hi he
    simp only [List.mem_append, List.mem_singleton, Report.began.injEq, reduceCtorEq, or_false]
      at hi he
    rw [hsame]
    rcases hi with hi | ⟨rfl, _⟩
    · exact h.complete i m all hi he
    · exact absurd he hunended

theorem Sound.others (h : x.Sound) {k : Round} {outer : List Round} (hx : x.rounds = k :: outer)
    {o : Round} (ho : o ∈ outer) : o.index ≠ k.index := by
  have hdistinct := h.distinct
  rw [hx, List.map_cons, List.nodup_cons] at hdistinct
  exact fun he => hdistinct.1 (he ▸ List.mem_map_of_mem ho)

theorem Sound.tell (h : x.Sound) {i n : Nat} {id : SubscriberId} {s : Subscriber}
    {left : List (SubscriberId × Subscriber)} {outer : List Round}
    (hx : x.rounds = ⟨i, n, (id, s) :: left⟩ :: outer) (hr : Alike x.relay r) :
    Sound
      { x with
        relay := r
        rounds := ⟨i, n, left⟩ :: outer
        log := x.log ++ [.told i id] } := by
  have hopen : Open x.log i := (h.underway i).mpr ⟨_, hx ▸ List.mem_cons_self, rfl⟩
  obtain ⟨all, hall, hleft⟩ := h.left ⟨i, n, (id, s) :: left⟩ (hx ▸ List.mem_cons_self)
  have hid : id ∈ all := hleft ▸ List.mem_append_right _ List.mem_cons_self
  have hsame : ∀ j, j ≠ i → toldIn j (x.log ++ [.told i id]) = toldIn j x.log := by
    intro j hj
    rw [toldIn_append, show toldIn j [.told i id] = [] by simp [toldIn, Report.toldIn?, hj.symm],
      List.append_nil]
  refine
    { orderly := h.orderly.add ⟨hopen, n, all, hall, hid⟩
      issued := ?_
      present := ?_
      fresh := ?_
      underway := ?_
      distinct := ?_
      left := ?_
      complete := ?_ }
  · intro j hj
    rw [hr.nextSubscriber]
    simp only [List.mem_append, List.mem_singleton, reduceCtorEq, or_false] at hj
    exact h.issued j hj
  · intro j
    rw [hr.subscribers, h.present j]
    simp [Alive]
  · intro j m others hj
    simp only [List.mem_append, List.mem_singleton, reduceCtorEq, or_false] at hj
    exact h.fresh j m others hj
  · intro j
    simp only [Open, List.mem_append, List.mem_singleton, reduceCtorEq, or_false]
    have hunderway := h.underway j
    rw [hx] at hunderway
    simpa only [Open, List.mem_cons, exists_eq_or_imp] using hunderway
  · have hdistinct := h.distinct
    rw [hx] at hdistinct
    exact hdistinct
  · intro k hk
    rcases List.mem_cons.mp hk with rfl | hk
    · refine ⟨all, List.mem_append_left _ hall, ?_⟩
      rw [toldIn_append, ← hleft, List.append_assoc]
      simp [toldIn, Report.toldIn?]
    · obtain ⟨others, hothers, hrest⟩ := h.left k (hx ▸ List.mem_cons_of_mem _ hk)
      refine ⟨others, List.mem_append_left _ hothers, ?_⟩
      rw [hsame k.index (h.others hx hk)]
      exact hrest
  · intro j m others hj he
    simp only [List.mem_append, List.mem_singleton, reduceCtorEq, or_false] at hj he
    have hne : j ≠ i := fun hji => hopen.2 (hji ▸ he)
    rw [hsame j hne]
    exact h.complete j m others hj he

theorem Sound.finish (h : x.Sound) {i n : Nat} {outer : List Round}
    (hx : x.rounds = ⟨i, n, []⟩ :: outer) :
    Sound { x with rounds := outer, log := x.log ++ [.ended i] } := by
  have hopen : Open x.log i := (h.underway i).mpr ⟨_, hx ▸ List.mem_cons_self, rfl⟩
  obtain ⟨all, hall, hleft⟩ := h.left ⟨i, n, []⟩ (hx ▸ List.mem_cons_self)
  have hsame : ∀ j, toldIn j (x.log ++ [.ended i]) = toldIn j x.log := by
    intro j
    rw [toldIn_append]
    exact List.append_nil _
  refine
    { orderly := h.orderly.add hopen
      issued := ?_
      present := ?_
      fresh := ?_
      underway := ?_
      distinct := ?_
      left := ?_
      complete := ?_ }
  · intro j hj
    simp only [List.mem_append, List.mem_singleton, reduceCtorEq, or_false] at hj
    exact h.issued j hj
  · intro j
    rw [h.present j]
    simp [Alive]
  · intro j m others hj
    simp only [List.mem_append, List.mem_singleton, reduceCtorEq, or_false] at hj
    exact h.fresh j m others hj
  · intro j
    rw [open_ended, h.underway j, hx]
    constructor
    · rintro ⟨⟨k, hk, rfl⟩, hne⟩
      rcases List.mem_cons.mp hk with rfl | hk
      · exact absurd rfl hne
      · exact ⟨k, hk, rfl⟩
    · rintro ⟨k, hk, rfl⟩
      exact ⟨⟨k, List.mem_cons_of_mem _ hk, rfl⟩, h.others hx hk⟩
  · have hdistinct := h.distinct
    rw [hx, List.map_cons, List.nodup_cons] at hdistinct
    exact hdistinct.2
  · intro k hk
    obtain ⟨others, hothers, hrest⟩ := h.left k (hx ▸ List.mem_cons_of_mem _ hk)
    refine ⟨others, List.mem_append_left _ hothers, ?_⟩
    rw [hsame]
    exact hrest
  · intro j m others hj he
    simp only [List.mem_append, List.mem_singleton, reduceCtorEq, or_false, Report.ended.injEq]
      at hj he
    rw [hsame]
    rcases he with he | rfl
    · exact h.complete j m others hj he
    · rw [h.orderly.unique hj hall, ← hleft]
      exact (List.append_nil _).symm

/-! ## Everything that happens -/

theorem Alike.refl (r : Relay) : Alike r r := ⟨rfl, rfl⟩

theorem alike_removal (r : Relay) (id : ConnectionId) : Alike r (r.removal id).1 := by
  unfold Relay.removal
  split
  · rename_i hlisted
    exact .of_registry (Relay.registry_delisted hlisted) rfl rfl
  · exact .refl r

theorem alike_cleared (r : Relay) : Alike r r.cleared := by
  obtain ⟨retained, hforgotten, _⟩ :=
    Registry.foldl_forget r.registry.retained.ids r.registry.delistAll
  exact .of_registry (r.registry_cleared.trans hforgotten) rfl rfl

theorem alike_forget (r : Relay) (id : ConnectionId) : Alike r (r.forget id) :=
  .of_registry (r.registry_forget id) rfl rfl

/-- The tasks that change who is subscribed. -/
def resubscribes : Task → Bool
  | .subscribe _ _ => true
  | .unsubscribe _ _ => true
  | _ => false

theorem alike_opening {t : Task} (ht : resubscribes t = false) (r : Relay) :
    Alike r (r.opening t).1 := by
  have hif : ∀ (b : Bool) {p : Relay × Option Nat}, Alike r p.1 →
      Alike r (if b then p else (r, none)).1 := by
    intro b p hp
    cases b with
    | true => exact hp
    | false => exact .refl r
  have hforget : ∀ (b : Bool) (id : ConnectionId), Alike r (if b then r.forget id else r) := by
    intro b id
    cases b with
    | true => exact alike_forget r id
    | false => exact .refl r
  cases t with
  | subscribe m s => cases ht
  | unsubscribe m id => cases ht
  | add m request k =>
    simp only [Relay.opening]
    split
    · rename_i manager hm
      split
      · have hregistry := Relay.registry_listing hm request k
        exact .of_registry (s := (Relay.listing manager request k r).post .announce) hregistry
          rfl rfl
      · exact .refl r
    · exact .refl r
  | remove m id => exact hif _ (alike_removal r id)
  | sourceClosed m id => exact hif _ (alike_removal r id)
  | close m => exact hif _ (alike_cleared r)
  | cursorLeft m id => exact hforget _ id
  | windowElapsed m id => exact hforget _ id
  | announce => exact ⟨rfl, rfl⟩
  | enter e => exact ⟨rfl, rfl⟩

theorem alike_unsubscribe {id : SubscriberId}
    (h : r.registry.subscribers.contains id = false) :
    Alike r (r.updateRegistry (·.unsubscribe id)) := by
  rcases r.registry_updateRegistry_cases (·.unsubscribe id) with he | he
  · exact ⟨by rw [he], by rw [he]⟩
  · have hfresh : r.registry.subscribers.get? id = none := by
      simpa [Roster.contains] using h
    refine ⟨?_, by rw [he]; rfl⟩
    rw [he, Registry.unsubscribe, Roster.erase_of_fresh hfresh]

theorem Sound.cancel (h : x.Sound) (id : SubscriberId) {inside : Bool}
    (hinside : inside = false → x.rounds = []) :
    Sound
      { x with
        relay := x.relay.updateRegistry (·.unsubscribe id)
        log := x.log ++
          if x.relay.registry.subscribers.contains id then [.cancelled id inside] else [] } := by
  cases hid : x.relay.registry.subscribers.contains id with
  | true => exact h.unsubscribe hid hinside
  | false =>
    have halike := h.alike (alike_unsubscribe hid)
    simpa using halike

theorem Sound.work (h : x.Sound) (t : Task) : Sound (x.work t) := by
  have hquiet : ∀ r, x.relay.opening t = (r, none) → reports x.relay (!x.rounds.isEmpty) t = [] →
      Alike x.relay r → Sound (x.work t) := by
    intro r hopening hreports hr
    rw [work_quiet hopening, hreports, List.append_nil]
    exact h.alike hr
  have hinside : (!x.rounds.isEmpty) = false → x.rounds = [] := by simp
  cases hresubscribes : resubscribes t with
  | false =>
    have hr := alike_opening hresubscribes x.relay
    cases hopening : x.relay.opening t with
    | mk r told =>
      rw [hopening] at hr
      cases told with
      | some n =>
        rw [work_round hopening]
        exact h.begin hr n
      | none =>
        refine hquiet r hopening ?_ hr
        cases t <;> first | rfl | cases hresubscribes
  | true =>
    cases t with
    | subscribe m s =>
      cases hm : x.relay.isManagedBy m with
      | false =>
        exact hquiet x.relay (by simp [Relay.opening, Relay.perform, hm]) (by simp [reports, hm])
          (.refl _)
      | true =>
        have hopening : x.relay.opening (.subscribe m s) =
            (x.relay.updateRegistry (·.subscribe s), none) := by
          simp [Relay.opening, Relay.perform, hm]
        rw [work_quiet hopening]
        simpa [reports, hm] using h.subscribe hm s
    | unsubscribe m id =>
      cases hm : x.relay.isManagedBy m with
      | false =>
        exact hquiet x.relay (by simp [Relay.opening, Relay.perform, hm]) (by simp [reports, hm])
          (.refl _)
      | true =>
        have hopening : x.relay.opening (.unsubscribe m id) =
            (x.relay.updateRegistry (·.unsubscribe id), none) := by
          simp [Relay.opening, Relay.perform, hm]
        rw [work_quiet hopening]
        simpa [reports, hm] using h.cancel id hinside
    | _ => cases hresubscribes

theorem Sound.next (h : x.Sound) : Sound x.next := by
  unfold Delivery.next
  split
  · exact h
  · rename_i hx
    exact h.finish hx
  · rename_i hx
    exact h.tell hx (.of_eq rfl)

theorem Sound.strike (h : x.Sound) (id : SubscriberId) : Sound (x.strike id) := by
  unfold Delivery.strike
  split
  · rename_i hover
    have hnone : x.rounds = [] := by
      rw [Bool.and_eq_true, List.isEmpty_iff] at hover
      exact hover.2
    exact h.cancel id fun _ => hnone
  · exact h

theorem Sound.deed (h : x.Sound) (d : Deed) : Sound (x.deed d) := by
  unfold Delivery.deed
  split
  · rename_i t a _
    split
    · have htaken : Sound { x with relay := { x.relay with agenda := a } } := h.alike (.of_eq rfl)
      exact htaken.work t
    · exact h
  · rename_i hserved
    split
    · exact h.strike _
    · rename_i hstrike
      cases hd : Relay.Deed.overrides d with
      | false => exact h.alike (.of_eq (Relay.aside_enact hserved hd).manager)
      | true =>
        cases d with
        | stop => exact h.alike (.of_eq rfl)
        | strike id => exact absurd rfl (hstrike id)
        | _ => cases hd

theorem Sound.move (h : x.Sound) (m : Move) : Sound (x.move m) := by
  cases m with
  | deed d => exact h.deed d
  | next => exact h.next
  | wish w =>
    simp only [Delivery.move, grant]
    split
    · exact h.work _
    · exact h

theorem sound_run (c : Settings) (catalog : Catalog) (moves : List Move) :
    Sound (run c catalog moves) :=
  List.foldlRecOn moves Delivery.move (sound_start c catalog) fun _ h m _ => h.move m

/-! ## Main result -/

theorem Orderly.of_append {log more : List Report} (h : Orderly (log ++ more)) : Orderly log :=
  fun before r after hlog => h before r (after ++ more) (by simp [hlog])

theorem Sound.round (h : x.Sound) {before after : List Report} {i n : Nat}
    {all : List SubscriberId} (hlog : x.log = before ++ .began i n all :: after) :
    all.Nodup ∧ (∀ id, id ∈ all ↔ Alive before id) ∧ toldIn i before = [] ∧
      toldIn i after <+: all ∧ (.ended i ∈ after → toldIn i after = all) := by
  obtain ⟨hnodup, hall, hnew⟩ := h.orderly before _ after hlog
  have hbefore : toldIn i before = [] := (hlog ▸ h.orderly).of_append.untold hnew
  have hbegan : Report.began i n all ∈ x.log := by simp [hlog]
  have htold : toldIn i x.log = toldIn i after := by
    rw [hlog, toldIn_append, hbefore]
    rfl
  have hwhole : .ended i ∈ x.log → toldIn i after = all := by
    intro he
    rw [← htold]
    exact h.complete i n all hbegan he
  refine ⟨hnodup, hall, hbefore, ?_, fun he => hwhole (by simp [hlog, he])⟩
  by_cases he : .ended i ∈ x.log
  · exact ⟨[], by rw [hwhole he, List.append_nil]⟩
  · obtain ⟨k, hk, rfl⟩ := (h.underway i).mp ⟨⟨n, all, hbegan⟩, he⟩
    obtain ⟨others, hothers, hleft⟩ := h.left k hk
    rw [h.orderly.unique hbegan hothers, ← htold, ← hleft]
    exact List.prefix_append _ _

/-- After its end a subscription is told only in rounds that were under way then. -/
theorem Orderly.told_in_open {log before after : List Report} (h : Orderly log)
    {id : SubscriberId} {inside : Bool} (hlog : log = before ++ .cancelled id inside :: after)
    {i : Nat} (htold : .told i id ∈ after) : Open before i := by
  obtain ⟨middle, late, rfl⟩ := List.append_of_mem htold
  obtain ⟨⟨_, hended⟩, n, all, hbegan, hid⟩ :=
    h (before ++ .cancelled id inside :: middle) (.told i id) late (by simp [hlog])
  refine ⟨⟨n, all, ?_⟩, fun he => hended (List.mem_append_left _ he)⟩
  rcases List.mem_append.mp hbegan with hbefore | hafter
  · exact hbefore
  -- A round that begins later is not for this subscription.
  · rcases List.mem_cons.mp hafter with he | hmiddle
    · cases he
    · obtain ⟨first, second, rfl⟩ := List.append_of_mem hmiddle
      obtain ⟨_, hall, _⟩ := h (before ++ .cancelled id inside :: first) (.began i n all)
        (second ++ .told i id :: late) (by simp [hlog])
      exact absurd (by simp) (((hall id).mp hid).2 inside)

theorem Orderly.not_resubscribed {log before after : List Report} (h : Orderly log)
    {id : SubscriberId} {inside : Bool} (hlog : log = before ++ .cancelled id inside :: after) :
    .subscribed id ∉ after := by
  intro hmem
  obtain ⟨middle, late, rfl⟩ := List.append_of_mem hmem
  have halive : Alive before id := (h before _ _ hlog).1
  have hnew := h (before ++ .cancelled id inside :: middle) (.subscribed id) late (by simp [hlog])
  exact hnew (List.mem_append_left _ halive.1)

/-- Those who are left in the rounds under way, and the ends of the rounds. -/
def toCome (x : Delivery) : Nat := total (fun k => k.left.length + 1) x.rounds

/-- The rounds under way come to their end if those who are told ask for nothing more. -/
theorem comes_to_end (x : Delivery) :
    ((List.replicate x.toCome Move.next).foldl Delivery.move x).rounds = [] := by
  generalize hn : x.toCome = n
  induction n generalizing x with
  | zero =>
    cases hx : x.rounds with
    | nil => exact hx
    | cons k outer =>
      rw [toCome, hx, total_cons] at hn
      omega
  | succ n ih =>
    rw [List.replicate_succ, List.foldl_cons]
    apply ih
    simp only [toCome, Delivery.move, Delivery.next] at hn ⊢
    split
    · rename_i hx
      simp [hx] at hn
    · rename_i hx
      rw [hx, total_cons, List.length_nil] at hn
      dsimp only at hn ⊢
      omega
    · rename_i hx
      rw [hx, total_cons, List.length_cons] at hn
      rw [total_cons]
      dsimp only
      omega

/-- Whatever happens and whatever those who are told ask for, in rounds within rounds:

* A round goes to all whose subscriptions are alive when it begins, to each once and in order, and
to nobody else. So those that stay alive are told in every round.
* A subscription that has been cancelled is never told again in a round that begins later, and if it
was not cancelled by somebody who was being told it is not told again at all. Cancelled from within
a round it may still be told in the rounds that were under way.
* Every round can come to its end, and telling in rounds is what the work of the thread does. -/
theorem rounds_tell_subscribers (c : Settings) (catalog : Catalog) :
    (∀ moves, let log := (run c catalog moves).log
      (∀ before after round size all, log = before ++ .began round size all :: after →
        all.Nodup ∧ (∀ id, id ∈ all ↔ Alive before id) ∧
        toldIn round before = [] ∧ toldIn round after <+: all ∧
        (.ended round ∈ after → toldIn round after = all)) ∧
      (∀ before after id inside, log = before ++ .cancelled id inside :: after →
        .subscribed id ∉ after ∧ (∀ round, .told round id ∈ after → Open before round) ∧
        (inside = false → ∀ round, .told round id ∉ after))) ∧
    (∀ moves, ∃ n, (run c catalog (moves ++ List.replicate n .next)).rounds = []) ∧
    ∀ deeds, ∃ moves, (run c catalog moves).relay = Relay.runDeeds c catalog deeds ∧
      (run c catalog moves).rounds = [] := by
  refine ⟨fun moves => ⟨?_, ?_⟩, fun moves => ?_, comes_runDeeds c catalog⟩
  · intro before after i n all hlog
    exact (sound_run c catalog moves).round hlog
  · intro before after id inside hlog
    have horderly := (sound_run c catalog moves).orderly
    refine ⟨horderly.not_resubscribed hlog, fun i => horderly.told_in_open hlog, ?_⟩
    intro hinside i htold
    obtain ⟨_, hnone⟩ := horderly before _ after hlog
    exact hnone hinside i (horderly.told_in_open hlog htold)
  · refine ⟨(run c catalog moves).toCome, ?_⟩
    rw [run, List.foldl_append]
    exact comes_to_end _

def cancelledInRound : List Move :=
  [.deed (.move (.subscribe ⟨"a", ["b"], none⟩)), .deed (.move .run),
    .deed (.move (.subscribe ⟨"b", [], none⟩)), .deed (.move .run), .deed (.own {} {}),
    .deed (.list ⟨{}, "m", "e", ""⟩ 0), .deed (.move .run), .next, .wish (.cancel 1), .next, .next]

def cancelledByFirst : List Deed :=
  [.move (.subscribe ⟨"a", ["b"], none⟩), .move .run, .move (.subscribe ⟨"b", [], none⟩),
    .move .run, .move (.subscriptions ((Roster.empty.put "a" ⟨0, 0⟩).put "b" ⟨0, 1⟩)), .own {} {},
    .list ⟨{}, "m", "e", ""⟩ 0, .move .run]

/-- The second is told although its subscription has been cancelled: it was copied with the others
when the round began. -/
theorem told_after_cancelling :
    (run {} {} cancelledInRound).log =
        [.subscribed 0, .subscribed 1, .began 0 1 [0, 1], .told 0 0, .cancelled 1 true, .told 0 1,
          .ended 0] ∧
      toldTo "b" (Relay.runDeeds {} {} cancelledByFirst).journal = [(1, 1)] ∧
      (Relay.runDeeds {} {} cancelledByFirst).registry.subscribers.ids = [0] ∧
      ¬∀ c catalog moves before after id inside,
        (run c catalog moves).log = before ++ .cancelled id inside :: after →
          ∀ round, .told round id ∉ after := by
  have hlog : (run {} {} cancelledInRound).log =
      [.subscribed 0, .subscribed 1, .began 0 1 [0, 1], .told 0 0, .cancelled 1 true, .told 0 1,
        .ended 0] := by
    decide +kernel
  refine ⟨hlog, by decide +kernel, by decide +kernel, fun hnever => ?_⟩
  exact hnever {} {} cancelledInRound
    [.subscribed 0, .subscribed 1, .began 0 1 [0, 1], .told 0 0] [.told 0 1, .ended 0] 1 true hlog 0
    (by simp)

end MediaRelay.Delivery
