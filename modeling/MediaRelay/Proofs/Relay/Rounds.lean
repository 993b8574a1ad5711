import MediaRelay.Proofs.Relay.Turns

/-! # Rounds of telling

A change of the table is told in a round: to all who are subscribed when it begins, one after
another. Whoever is being told may ask the manager for anything, and this is done on the spot, so
within one round another may begin. Here the rounds that are under way lie on a stack, and what
subscribers ask for is left open; a log tells who is subscribed and who has been told. Subscribers
that ask for what is written in them do what the work of the thread does.
-/
namespace MediaRelay

namespace Delivery

/-- A round that is under way, with the number of connections told and those still to be told. -/
structure Round where
  index : Nat
  size : Nat
  left : List (SubscriberId × Subscriber)

inductive Report where
  | subscribed (id : SubscriberId)
  /-- A subscription has ended, by the act of somebody who was being told, or by another's. -/
  | cancelled (id : SubscriberId) (inside : Bool)
  | began (round size : Nat) (all : List SubscriberId)
  | told (round : Nat) (id : SubscriberId)
  | ended (round : Nat)
deriving DecidableEq

/-- What somebody who is being told may ask the manager for. -/
inductive Wish where
  | list (request : Request) (k : SourceId)
  | remove (id : ConnectionId)
  | close
  | subscribe (s : Subscriber)
  | cancel (id : SubscriberId)

def Wish.task (m : ManagerId) : Wish → Task
  | .list request k => .add m request k
  | .remove id => .remove m id
  | .close => .close m
  | .subscribe s => .subscribe m s
  | .cancel id => .unsubscribe m id

inductive Move where
  /-- The thread takes a task, or others do something. -/
  | deed (d : Deed)
  /-- Whoever is being told asks for something. -/
  | wish (w : Wish)
  /-- The next one is told, or a round in which all have been told is over. -/
  | next

end Delivery

/-- A relay with the rounds under way, the innermost first. -/
structure Delivery where
  relay : Relay
  rounds : List Delivery.Round := []
  begun : Nat := 0
  log : List Delivery.Report := []

namespace Relay

/-- A connection is taken off the table, if it is listed, and nobody has been told yet. -/
def removal (r : Relay) (id : ConnectionId) : Relay × Option Nat :=
  if r.registry.connections.contains id then
    let s := r.updateRegistry (·.delist id)
    ((s.forget id).post .announce, some s.registry.count)
  else (r, none)

def opening (r : Relay) : Task → Relay × Option Nat
  | .add m request k =>
    match r.manager with
    | some manager =>
      if manager.id = m then
        let s := listing manager request k r
        (s.post .announce, some s.registry.count)
      else (r, none)
    | none => (r, none)
  | .remove m id => if r.isManagedBy m then r.removal id else (r, none)
  | .sourceClosed m id => if r.isManagedBy m then r.removal id else (r, none)
  | .close m => if r.isManagedBy m then (r.cleared, some 0) else (r, none)
  | t => (r.perform t, none)

end Relay

namespace Delivery

def reports (r : Relay) (inside : Bool) : Task → List Report
  | .subscribe m _ => if r.isManagedBy m then [.subscribed r.registry.nextSubscriber] else []
  | .unsubscribe m id =>
    if r.isManagedBy m && r.registry.subscribers.contains id then [.cancelled id inside] else []
  | _ => []

/-- A task is done, up to the round that it begins. -/
def work (x : Delivery) (t : Task) : Delivery :=
  match x.relay.opening t with
  | (r, none) => { x with relay := r, log := x.log ++ reports x.relay (!x.rounds.isEmpty) t }
  | (r, some n) =>
    { relay := r
      rounds := ⟨x.begun, n, r.registry.subscribers.entries⟩ :: x.rounds
      begun := x.begun + 1
      log := x.log ++ [.began x.begun n r.registry.subscribers.ids] }

def next (x : Delivery) : Delivery :=
  match x.rounds with
  | [] => x
  | ⟨i, _, []⟩ :: outer => { x with rounds := outer, log := x.log ++ [.ended i] }
  | ⟨i, n, (id, s) :: left⟩ :: outer =>
    { x with
      relay := x.relay.enter (.count s.tag n x.relay.registry.count)
      rounds := ⟨i, n, left⟩ :: outer
      log := x.log ++ [.told i id] }

/-- Once the thread is stopped and nobody is being told any more, those who cancel a subscription
strike it off themselves. -/
def strike (x : Delivery) (id : SubscriberId) : Delivery :=
  if x.relay.agenda.stopped && x.rounds.isEmpty then
    { x with
      relay := x.relay.updateRegistry (·.unsubscribe id)
      log := x.log ++
        if x.relay.registry.subscribers.contains id then [.cancelled id false] else [] }
  else x

/-- The thread takes a task when it is done with the one before; other deeds come at any time. -/
def deed (x : Delivery) (d : Deed) : Delivery :=
  match x.relay.served? d with
  | some (t, a) =>
    if x.rounds.isEmpty then { x with relay := { x.relay with agenda := a } }.work t else x
  | none =>
    match d with
    | .strike id => x.strike id
    | d => { x with relay := x.relay.enact d }

/-- A wish counts while somebody is being told. -/
def grant (x : Delivery) (w : Wish) : Delivery :=
  match x.rounds, x.relay.manager with
  | _ :: _, some m => x.work (w.task m.id)
  | _, _ => x

def move (x : Delivery) : Move → Delivery
  | .deed d => x.deed d
  | .wish w => x.grant w
  | .next => x.next

/-- A relay with a manager of any settings and any catalog, after any moves. -/
def run (c : Settings) (catalog : Catalog) (moves : List Move) : Delivery :=
  moves.foldl move { relay := ({} : Relay).makeManager c catalog }

def Comes (x y : Delivery) : Prop := ∃ moves : List Move, moves.foldl move x = y

variable {x y z : Delivery}

theorem Comes.refl (x : Delivery) : Comes x x := ⟨[], rfl⟩

theorem Comes.trans (h : Comes x y) (h' : Comes y z) : Comes x z := by
  obtain ⟨moves, rfl⟩ := h
  obtain ⟨more, rfl⟩ := h'
  exact ⟨moves ++ more, List.foldl_append⟩

theorem Comes.move (x : Delivery) (m : Move) : Comes x (x.move m) := ⟨[m], rfl⟩

/-! ## Subscribers that ask for what is written in them -/

theorem grant_eq (hx : x.rounds ≠ []) {m : Manager} (hm : x.relay.manager = some m) (w : Wish) :
    x.grant w = x.work (w.task m.id) := by
  unfold grant
  cases hrounds : x.rounds with
  | nil => exact absurd hrounds hx
  | cons k outer => simp only [hm]

theorem work_quiet {t : Task} {r : Relay} (h : x.relay.opening t = (r, none)) :
    x.work t =
      { x with relay := r, log := x.log ++ reports x.relay (!x.rounds.isEmpty) t } := by
  simp only [work, h]

theorem work_round {t : Task} {r : Relay} {n : Nat} (h : x.relay.opening t = (r, some n)) :
    x.work t =
      { relay := r
        rounds := ⟨x.begun, n, r.registry.subscribers.entries⟩ :: x.rounds
        begun := x.begun + 1
        log := x.log ++ [.began x.begun n r.registry.subscribers.ids] } := by
  simp only [work, h]

theorem comes_subscriptions (x : Delivery) (all : Roster String Subscription) :
    Comes x { x with relay := { x.relay with subscriptions := all } } :=
  .move x (.deed (.move (.subscriptions all)))

theorem comes_cancel (hx : x.rounds ≠ []) (tag : String) :
    ∃ y, Comes x y ∧ y.relay = x.relay.cancelOnThread tag ∧ y.rounds = x.rounds := by
  unfold Relay.cancelOnThread
  cases hs : x.relay.subscriptions.get? tag with
  | none => exact ⟨x, .refl x, rfl, rfl⟩
  | some s =>
    let y : Delivery :=
      { x with relay := { x.relay with subscriptions := x.relay.subscriptions.erase tag } }
    have hy : Comes x y := comes_subscriptions x _
    cases hmanaged : y.relay.isManagedBy s.manager with
    | false => exact ⟨y, hy, by simp [y, hmanaged], rfl⟩
    | true =>
      obtain ⟨m, hm, hid⟩ := Relay.exists_manager_of_managed hmanaged
      have hgrant : y.move (.wish (.cancel s.subscriber)) =
          y.work (.unsubscribe m.id s.subscriber) :=
        grant_eq (x := y) hx hm (.cancel s.subscriber)
      have hopening : y.relay.opening (.unsubscribe m.id s.subscriber) =
          (y.relay.updateRegistry (·.unsubscribe s.subscriber), none) := by
        simp only [Relay.opening, Relay.perform, hid, hmanaged, if_true]
      rw [work_quiet hopening] at hgrant
      refine ⟨_, hy.trans (.move y (.wish (.cancel s.subscriber))), ?_, ?_⟩
      · rw [hgrant]
        exact (if_pos hmanaged).symm
      · rw [hgrant]

theorem comes_cancels (hx : x.rounds ≠ []) (tags : List String) :
    ∃ y, Comes x y ∧ y.relay = tags.foldl Relay.cancelOnThread x.relay ∧ y.rounds = x.rounds := by
  induction tags generalizing x with
  | nil => exact ⟨x, .refl x, rfl, rfl⟩
  | cons tag rest ih =>
    obtain ⟨y, hy, hrelay, hrounds⟩ := comes_cancel hx tag
    obtain ⟨z, hz, hlast, hsame⟩ := ih (hrounds ▸ hx)
    exact ⟨z, hy.trans hz, by rw [hlast, hrelay, List.foldl_cons], hsame.trans hrounds⟩

/-- Those who are left are told, and the round is over. What is kept meanwhile, `Q`, lets the
removals happen that they ask for. -/
theorem comes_tellAll {Q : Relay → Prop} {remove : ConnectionId → Relay → Relay}
    (hQ : Relay.Telling fun r s => Q r → Q s) (hkeep : ∀ id r, Q r → Q (remove id r))
    (hremove : ∀ id (x : Delivery), x.rounds ≠ [] → Q x.relay →
      ∃ y, Comes x y ∧ y.relay = remove id x.relay ∧ y.rounds = x.rounds)
    {i n : Nat} {left : List (SubscriberId × Subscriber)} {outer : List Round}
    (hx : x.rounds = ⟨i, n, left⟩ :: outer) (hq : Q x.relay) :
    ∃ y, Comes x y ∧ y.relay = (left.map Prod.snd).foldl (Relay.tell remove n) x.relay ∧
      y.rounds = outer := by
  induction left generalizing x with
  | nil =>
    have hnext : x.move .next = { x with rounds := outer, log := x.log ++ [.ended i] } := by
      simp only [move, next, hx]
    exact ⟨_, .move x .next, by rw [hnext]; rfl, by rw [hnext]⟩
  | cons e left ih =>
    obtain ⟨id, s⟩ := e
    let told := x.relay.enter (.count s.tag n x.relay.registry.count)
    have hnext : x.move .next =
        { x with
          relay := told
          rounds := ⟨i, n, left⟩ :: outer
          log := x.log ++ [.told i id] } := by
      simp only [move, next, hx, told]
    have hcome := Comes.move x .next
    rw [hnext] at hcome
    obtain ⟨y, hy, hrelay, hrounds⟩ := comes_cancels
      (x := { x with relay := told, rounds := ⟨i, n, left⟩ :: outer, log := x.log ++ [.told i id] })
      (by simp) s.cancels
    have hqy : Q y.relay := by
      rw [hrelay]
      exact hQ.foldl hQ.cancel s.cancels told (hQ.tells x.relay s.tag n hq)
    have hwhole : ∃ z, Comes y z ∧ z.relay = Relay.tell remove n x.relay s ∧ z.rounds = y.rounds ∧
        Q z.relay := by
      unfold Relay.tell
      dsimp only
      rw [← hrelay]
      cases s.removes with
      | none => exact ⟨y, .refl y, rfl, rfl, hqy⟩
      | some c =>
        obtain ⟨z, hz, hlast, hsame⟩ := hremove c y (by rw [hrounds]; simp) hqy
        exact ⟨z, hz, hlast, hsame, hlast ▸ hkeep c y.relay hqy⟩
    obtain ⟨z, hz, htold, hsame, hqz⟩ := hwhole
    obtain ⟨w, hw, hlast, hout⟩ := ih (hsame.trans hrounds) hqz
    exact ⟨w, hcome.trans (hy.trans (hz.trans hw)), by rw [hlast, htold]; rfl, hout⟩

theorem count_delisted {r : Relay} {id : ConnectionId}
    (h : r.registry.connections.contains id = true) :
    (((r.updateRegistry (·.delist id)).forget id).post .announce).registry.count + 1 =
      r.registry.count := by
  obtain ⟨n, hn⟩ := Option.isSome_iff_exists.mp h
  rw [Relay.registry_delisted h]
  exact Roster.size_erase hn

theorem telling_count (depth : Nat) :
    Relay.Telling fun r s => r.registry.count ≤ depth → s.registry.count ≤ depth where
  refl := fun _ h => h
  trans := fun h h' hr => h' (h hr)
  tells := fun _ _ _ h => h
  renounce := fun _ _ h => h
  unsubscribe := by
    intro r id h
    rcases r.registry_updateRegistry_cases (·.unsubscribe id) with he | he <;> rw [he] <;> exact h
  delist := by
    intro r id hlisted h
    have hless := count_delisted hlisted
    omega

theorem removeWithin_of_unlisted {r : Relay} {id : ConnectionId}
    (h : r.registry.connections.contains id = false) (depth : Nat) :
    Relay.removeWithin depth id r = r := by
  cases depth with
  | zero => rfl
  | succ depth =>
    unfold Relay.removeWithin
    rw [h]
    rfl

theorem comes_wish {depth : Nat} {id : ConnectionId} (hx : x.rounds ≠ [])
    (hwork : ∀ t, x.relay.opening t = x.relay.removal id → ∃ y, Comes (x.work t) y ∧
      y.relay = Relay.removeWithin depth id x.relay ∧ y.rounds = x.rounds) :
    ∃ y, Comes x y ∧ y.relay = Relay.removeWithin depth id x.relay ∧ y.rounds = x.rounds := by
  cases hm : x.relay.manager with
  | none =>
    have hunlisted : x.relay.registry.connections.contains id = false := by
      rw [Relay.registry_of_none hm]
      rfl
    exact ⟨x, .refl x, (removeWithin_of_unlisted hunlisted depth).symm, rfl⟩
  | some m =>
    have hopening : x.relay.opening (.remove m.id id) = x.relay.removal id := by
      simp [Relay.opening, Relay.isManagedBy, hm]
    obtain ⟨y, hy, hlast⟩ := hwork _ hopening
    have hgrant : x.move (.wish (.remove id)) = x.work (.remove m.id id) :=
      grant_eq hx hm (.remove id)
    have hcome := Comes.move x (.wish (.remove id))
    rw [hgrant] at hcome
    exact ⟨y, hcome.trans hy, hlast⟩

/-- A removal that comes to its end within the given depth, with all that is told and asked for
meanwhile. -/
theorem comes_removal (depth : Nat) (x : Delivery) {t : Task} {id : ConnectionId}
    (ht : x.relay.opening t = x.relay.removal id) (hdepth : x.relay.registry.count ≤ depth) :
    ∃ y, Comes (x.work t) y ∧ y.relay = Relay.removeWithin depth id x.relay ∧
      y.rounds = x.rounds := by
  induction depth generalizing x t id with
  | zero =>
    cases hlisted : x.relay.registry.connections.contains id with
    | false =>
      rw [Relay.removal, hlisted] at ht
      rw [work_quiet ht]
      exact ⟨_, .refl _, rfl, rfl⟩
    | true =>
      have hless := count_delisted hlisted
      omega
  | succ depth ih =>
    cases hlisted : x.relay.registry.connections.contains id with
    | false =>
      rw [Relay.removal, hlisted] at ht
      rw [work_quiet ht, removeWithin_of_unlisted hlisted]
      exact ⟨_, .refl _, rfl, rfl⟩
    | true =>
      rw [Relay.removal, hlisted] at ht
      have hless := count_delisted hlisted
      rw [work_round ht]
      unfold Relay.removeWithin
      rw [if_pos hlisted]
      exact comes_tellAll (telling_count depth)
        (fun i r hr => (telling_count depth).removeWithin depth i r hr)
        (fun i y hy hcount => comes_wish hy fun t ht => ih y ht hcount) rfl (by
          dsimp only at hless ⊢
          omega)

theorem comes_remove (id : ConnectionId) (x : Delivery) (hx : x.rounds ≠ []) :
    ∃ y, Comes x y ∧ y.relay = Relay.remove id x.relay ∧ y.rounds = x.rounds :=
  comes_wish hx fun _ ht => comes_removal _ x ht (Nat.le_refl _)

theorem comes_round (x : Delivery) {t : Task} {r : Relay} {n : Nat}
    (ht : x.relay.opening t = (r, some n)) :
    ∃ y, Comes (x.work t) y ∧ y.relay = Relay.tellAll Relay.remove n r ∧ y.rounds = x.rounds := by
  rw [work_round ht]
  exact comes_tellAll (telling_count r.registry.count)
    (fun id s hs => (telling_count r.registry.count).remove id s hs)
    (fun id y hy _ => comes_remove id y hy) rfl (Nat.le_refl _)

/-- A task is done, with all that is told and asked for meanwhile, as the thread does it. -/
theorem comes_perform (x : Delivery) (t : Task) :
    ∃ y, Comes (x.work t) y ∧ y.relay = x.relay.perform t ∧ y.rounds = x.rounds := by
  have hnone : ∀ r, x.relay.opening t = (r, none) → r = x.relay.perform t →
      ∃ y, Comes (x.work t) y ∧ y.relay = x.relay.perform t ∧ y.rounds = x.rounds := by
    intro r hopening hr
    rw [work_quiet hopening]
    exact ⟨_, .refl _, hr, rfl⟩
  have hremoval : ∀ m id, x.relay.opening t =
        (if x.relay.isManagedBy m then x.relay.removal id else (x.relay, none)) →
      x.relay.perform t = (if x.relay.isManagedBy m then x.relay.remove id else x.relay) →
      ∃ y, Comes (x.work t) y ∧ y.relay = x.relay.perform t ∧ y.rounds = x.rounds := by
    intro m id hopening hperform
    cases hm : x.relay.isManagedBy m with
    | false =>
      rw [hm] at hopening hperform
      exact hnone _ hopening hperform.symm
    | true =>
      rw [hm] at hopening hperform
      rw [hperform]
      exact comes_removal _ x hopening (Nat.le_refl _)
  cases t with
  | remove m id => exact hremoval m id rfl rfl
  | sourceClosed m id => exact hremoval m id rfl rfl
  | add m request k =>
    cases hm : x.relay.manager with
    | none => exact hnone x.relay (by simp [Relay.opening, hm]) (by simp [Relay.perform, hm])
    | some manager =>
      by_cases hid : manager.id = m
      · have hperform : x.relay.perform (.add m request k) = x.relay.add manager request k := by
          simp [Relay.perform, hm, hid]
        rw [hperform, Relay.add_eq]
        exact comes_round x (by simp [Relay.opening, hm, hid])
      · exact hnone x.relay (by simp [Relay.opening, hm, hid]) (by simp [Relay.perform, hm, hid])
  | close m =>
    cases hm : x.relay.isManagedBy m with
    | false => exact hnone x.relay (by simp [Relay.opening, hm]) (by simp [Relay.perform, hm])
    | true =>
      have hperform : x.relay.perform (.close m) = x.relay.clear := by simp [Relay.perform, hm]
      rw [hperform, Relay.clear_eq]
      exact comes_round x (by simp [Relay.opening, hm])
  | _ => exact hnone _ rfl rfl

theorem comes_deed (hx : x.rounds = []) (d : Deed) :
    ∃ y, Comes x y ∧ y.relay = x.relay.enact d ∧ y.rounds = [] := by
  cases hserved : x.relay.served? d with
  | none =>
    have hmove : (x.move (.deed d)).relay = x.relay.enact d ∧ (x.move (.deed d)).rounds = [] := by
      cases d with
      | strike id =>
        simp only [move, deed, hserved, strike, hx, Relay.enact, List.isEmpty_nil, Bool.and_true]
        split
        · exact ⟨rfl, rfl⟩
        · exact ⟨rfl, hx⟩
      | _ =>
        simp only [move, deed, hserved]
        exact ⟨trivial, hx⟩
    exact ⟨_, .move x (.deed d), hmove⟩
  | some served =>
    obtain ⟨t, a⟩ := served
    let y : Delivery := { x with relay := { x.relay with agenda := a } }
    have hmove : x.move (.deed d) = y.work t := by
      simp only [move, deed, hserved, hx, List.isEmpty_nil, if_true, y]
    have hcome := Comes.move x (.deed d)
    rw [hmove] at hcome
    obtain ⟨z, hz, hrelay, hrounds⟩ := comes_perform y t
    refine ⟨z, hcome.trans hz, ?_, hrounds.trans hx⟩
    rw [hrelay, Relay.enact_of_served hserved]

/-- Whatever deeds are done at a relay, its subscribers are told in rounds. -/
theorem comes_runDeeds (c : Settings) (catalog : Catalog) (deeds : List Deed) :
    ∃ moves, (run c catalog moves).relay = Relay.runDeeds c catalog deeds ∧
      (run c catalog moves).rounds = [] := by
  have hall : ∀ (ds : List Deed) (x : Delivery), x.rounds = [] →
      ∃ y, Comes x y ∧ y.relay = ds.foldl Relay.enact x.relay ∧ y.rounds = [] := by
    intro ds
    induction ds with
    | nil => exact fun x hx => ⟨x, .refl x, rfl, hx⟩
    | cons d rest ih =>
      intro x hx
      obtain ⟨y, hy, hrelay, hrounds⟩ := comes_deed hx d
      obtain ⟨z, hz, hlast, hdone⟩ := ih y hrounds
      exact ⟨z, hy.trans hz, by rw [hlast, hrelay, List.foldl_cons], hdone⟩
  obtain ⟨y, ⟨moves, hmoves⟩, hlast⟩ :=
    hall deeds { relay := ({} : Relay).makeManager c catalog } rfl
  exact ⟨moves, by rw [run, hmoves]; exact hlast⟩

end Delivery
end MediaRelay
