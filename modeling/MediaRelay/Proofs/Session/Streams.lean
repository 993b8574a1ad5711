import Mathlib.Data.List.Induction
import MediaRelay.Proofs.Relay.Listing
import MediaRelay.Proofs.Session.Run
import MediaRelay.Proofs.Stream.Residence
import MediaRelay.Proofs.Stream.Sharing

/-! # Streams in a session

Whatever the steps of a session are, each source is at any time where a run of actions on a new
source leads. So what holds after any run of actions holds of all sources that a session reports.
-/
namespace MediaRelay

/-- A run of actions leads to this source. -/
def Source.Reached (s : Source) : Prop := ∃ z actions, s = (Flow.run z actions).source

namespace Source.Reached
variable {s t : Source} {r r' : Reader}

theorem start (z : Sizing) : (Source.start z).Reached := ⟨z, [], rfl⟩

theorem foldl (h : s.Reached) (actions : List Action) : (actions.foldl Source.act s).Reached := by
  obtain ⟨z, before, rfl⟩ := h
  refine ⟨z, before ++ actions, ?_⟩
  rw [Flow.run_append, Flow.source_foldl]

theorem act (h : s.Reached) (a : Action) : (s.act a).Reached := h.foldl [a]

theorem attach? {id : CursorId} (h : s.Reached) (ha : s.attach? = some (id, t)) : t.Reached := by
  have ht : s.act .attach = t := by simp [Source.act, ha]
  rw [← ht]
  exact h.act .attach

theorem settle {f : Feed} (h : f.source.Reached) : f.settle.source.Reached := by
  obtain ⟨actions, hsettle⟩ := f.settle_source
  rw [hsettle]
  exact h.foldl actions

theorem proceed? {c : Client} {p : Client × Source} (h : s.Reached) (hc : c.proceed? s = some p) :
    p.2.Reached := by
  have hturn : c.step? s .proceed = some p := hc
  rcases (Client.step?_inv hturn).source with he | ⟨a, _, he⟩ <;> rw [he]
  · exact h
  · exact h.act a

/-- A call that nobody interferes with is a run of actions. -/
theorem alone? {c : Client} {call : Call} {p : Client × Source} (h : s.Reached)
    (hc : c.alone? call s = some p) : p.2.Reached := by
  have hfinish : ∀ (c : Client) {s : Source}, s.Reached → (c.finish s).2.Reached := by
    intro c s h
    unfold Client.finish
    split
    · cases hp : c.proceed? s with
      | none => exact h
      | some p => exact h.proceed? hp
    · exact h
  have hbegin : (c.begin call s).2.Reached := by
    unfold Client.begin
    split
    · exact h.act (.release c.reader.cursor)
    · exact h
  simp only [Client.alone?] at hc
  split at hc
  · obtain ⟨q, hq, rfl⟩ := Option.map_eq_some_iff.mp hc
    exact hfinish _ (hbegin.proceed? hq)
  · rw [← Option.some.inj hc]
    exact hfinish _ hbegin

/-! ## What a reader does -/

theorem fill? (h : s.Reached) (hr : r.fill? s = some (r', t)) : t.Reached := by
  have hcall := ({ reader := r } : Client).alone?_fill s
  rw [hr] at hcall
  exact h.alone? hcall

theorem consume (h : s.Reached) (r : Reader) (n : Nat) : (r.consume n s).2.Reached := by
  have hcall := ({ reader := r } : Client).alone?_consume s n
  obtain ⟨p, hp, hlast⟩ := Option.map_eq_some_iff.mp hcall
  rw [← congrArg Prod.snd hlast]
  exact h.alone? hp

theorem read? {n : Nat} {data : ByteArray} (h : s.Reached) (hr : r.read? n s = some (data, r', t)) :
    t.Reached := by
  have hcall := ({ reader := r } : Client).alone?_read s n
  rw [hr] at hcall
  exact h.alone? hcall

theorem chunk? {data : Option ByteArray} (h : s.Reached) (hr : r.chunk? s = some (data, r', t)) :
    t.Reached := by
  have hcall := ({ reader := r } : Client).alone?_chunk s
  rw [hr] at hcall
  exact h.alone? hcall

theorem drain {f : Feed} (buffer n : Nat) (r : Reader) (h : f.source.Reached) :
    (r.drain buffer n f).2.2.source.Reached := by
  induction n generalizing r f with
  | zero => exact h
  | succ n ih =>
    unfold Reader.drain
    cases hread : r.read? buffer f.source with
    | none => exact h
    | some p =>
      obtain ⟨data, r', t⟩ := p
      have ht : t.Reached := h.read? hread
      dsimp only
      split
      · exact ht
      · exact ih r' (settle (f := { f with source := t }) ht)

end Source.Reached

namespace Relay
variable {r s : Relay}

/-- Runs of actions lead to all sources of a relay. -/
def Flowing (r : Relay) : Prop := ∀ k c, r.channels.get? k = some c → c.feed.source.Reached

namespace Flowing

theorem updateChannel (h : r.Flowing) (k : SourceId) {f : Channel → Channel}
    (hf : ∀ c : Channel, c.feed.source.Reached → (f c).feed.source.Reached) :
    (r.updateChannel k f).Flowing := by
  intro j c hc
  simp only [Relay.updateChannel, Roster.get?_modify] at hc
  split at hc
  · obtain ⟨b, hb, rfl⟩ := Option.map_eq_some_iff.mp hc
    exact hf b (h j b hb)
  · exact h j c hc

theorem reap (h : r.Flowing) (k : SourceId) : (r.reap k).Flowing := by
  rcases r.reap_cases k with ⟨he, _⟩ | ⟨_, _, _, he⟩ <;> rw [he]
  · exact h
  · intro j c hc
    simp only [Roster.get?_erase, Option.ite_none_left_eq_some] at hc
    exact h j c hc.2

theorem forget (h : r.Flowing) (id : ConnectionId) : (r.forget id).Flowing := by
  unfold Relay.forget
  split
  · exact h
  · exact reap (r := r.updateRegistry _) h _

theorem openSource (h : r.Flowing) (z : Sizing) (i : Input) (owned : Bool) :
    (r.openSource z i owned).2.Flowing := by
  intro k c hc
  simp only [Relay.openSource, Roster.get?_put] at hc
  split at hc
  · cases hc
    exact .start z
  · exact h k c hc

theorem join? {k : SourceId} {name : String} {l : Listener} (h : r.Flowing)
    (hj : r.join? k name = some (l, s)) : s.Flowing := by
  unfold Relay.join? at hj
  split at hj
  · cases hj
  · rename_i c hc
    split at hj
    · cases hj
    · rename_i source hattach
      cases hj
      exact h.updateChannel k fun _ _ => (h k c hc).attach? hattach

theorem leave (h : r.Flowing) (name : String) : (r.leave name).Flowing := by
  unfold Relay.leave
  split
  · exact h
  · rename_i l _
    refine reap ?_ l.source
    exact h.updateChannel l.source fun _ hc => hc.act (.detach l.reader.cursor)

theorem disown (h : r.Flowing) (k : SourceId) : (r.disown k).Flowing :=
  reap (h.updateChannel k (f := fun c => { c with owned := false }) fun _ hc => hc) k

theorem listen? {α : Type} {name : String} {act : Reader → Feed → Option (α × Reader × Feed)}
    {a : α} (h : r.Flowing)
    (hact : ∀ rd f a rd' f', act rd f = some (a, rd', f') → f.source.Reached → f'.source.Reached)
    (hl : r.listen? name act = some (a, s)) : s.Flowing := by
  unfold Relay.listen? at hl
  split at hl
  · cases hl
  · rename_i l _
    split at hl
    · cases hl
    · rename_i c hc
      split at hl
      · cases hl
      · rename_i feed hdone
        cases hl
        exact h.updateChannel l.source fun _ _ => hact _ _ _ _ _ hdone (h _ c hc)

theorem settle (h : r.Flowing) : r.settle.Flowing := by
  intro k c hc
  simp only [Relay.settle, Roster.get?_mapValues] at hc
  obtain ⟨b, hb, rfl⟩ := Option.map_eq_some_iff.mp hc
  exact Source.Reached.settle (h k b hb)

end Flowing

/-! ## The work of the thread -/

theorem kept_flowing : Kept fun r s => r.Flowing → s.Flowing where
  refl := fun _ h => h
  trans := fun h h' hr => h' (h hr)
  enter := fun _ _ h => h
  renounce := fun _ _ h => h
  subscribe := fun _ _ h => h
  unsubscribe := fun _ _ h => h
  forget := fun _ id h => h.forget id
  delistAll := fun _ h => h
  delist := fun r id _ h => Flowing.forget (r := r.updateRegistry (·.delist id)) h id

namespace Flowing

theorem perform (h : r.Flowing) (t : Task) : (r.perform t).Flowing := by
  refine kept_flowing.perform_of_listing r t ?_ h
  exact fun m request k _ _ h => h.updateChannel k fun _ hc => hc

theorem runUpTo (h : r.Flowing) (n : Nat) : (r.runUpTo n).2.Flowing := by
  induction n generalizing r with
  | zero => exact h
  | succ n ih =>
    simp only [Relay.runUpTo, runNext?]
    cases r.agenda.next? with
    | none => exact h
    | some next => exact ih (perform (r := { r with agenda := next.2 }) h next.1)

theorem drain (h : r.Flowing) : r.drain.Flowing := h.runUpTo _

theorem fireUpTo (h : r.Flowing) (n limit : Nat) : (r.fireUpTo n limit).2.Flowing := by
  induction n generalizing r with
  | zero => exact h
  | succ n ih =>
    simp only [Relay.fireUpTo]
    cases r.agenda.due? limit with
    | none => exact h
    | some next => exact ih (perform (r := { r with agenda := next.2 }) h next.1).drain

theorem advance (h : r.Flowing) (delay : Nat) : (r.advance delay).2.Flowing := h.drain.fireUpTo _ _

theorem send? {t : Task} (h : r.Flowing) (hs : r.send? t = some s) : s.Flowing := by
  unfold Relay.send? at hs
  split at hs
  · cases hs
  · cases hs
    exact h.drain.perform t

/-! ## Calls on the manager -/

theorem dropManager (h : r.Flowing) : r.dropManager.Flowing := by
  unfold Relay.dropManager
  split
  · exact h
  · exact kept_flowing.foldl kept_flowing.forget _ _ h

theorem tryAttach {request : Request} {name : String} {l : Listener} (h : r.Flowing)
    (ha : r.tryAttach request name = .ok (l, s)) : s.Flowing := by
  unfold Relay.tryAttach at ha
  split at ha
  · cases ha
  · split at ha
    · cases ha
    · rename_i hj
      cases ha
      exact h.join? hj

theorem addConnection {m : Manager} {request : Request} {k : SourceId} {id : ConnectionId}
    (h : r.Flowing) (ha : r.addConnection m request k = .ok (id, s)) : s.Flowing := by
  unfold Relay.addConnection at ha
  split at ha
  · cases ha
  · rename_i hs
    cases ha
    exact h.send? hs

theorem removeConnection {m : Manager} {id : ConnectionId} (h : r.Flowing)
    (hs : r.removeConnection m id = .ok s) : s.Flowing := by
  unfold Relay.removeConnection at hs
  split at hs
  · cases hs
  · rename_i hsent
    cases hs
    exact h.send? hsent

theorem closeAll {m : Manager} (h : r.Flowing) (hs : r.closeAll m = .ok s) : s.Flowing := by
  unfold Relay.closeAll at hs
  split at hs
  · cases hs
  · rename_i hsent
    cases hs
    exact h.send? hsent

theorem subscribe {m : Manager} {u : Subscriber} (h : r.Flowing)
    (hs : r.subscribe m u = .ok s) : s.Flowing := by
  unfold Relay.subscribe at hs
  split at hs
  · cases hs
  · rename_i sent hsent
    cases hs
    have hflowing : sent.Flowing := h.send? hsent
    exact hflowing

theorem unsubscribe (h : r.Flowing) (tag : String) : (r.unsubscribe tag).Flowing := by
  unfold Relay.unsubscribe
  split
  · exact h
  · dsimp only
    split
    · split
      · exact h
      · rename_i hsent
        exact send? (r := { r with subscriptions := r.subscriptions.erase tag }) h hsent
    · exact h

theorem openConnection (h : r.Flowing) (m : Manager) (request : Request) (name : String)
    (start : Except InputFailure Input) (refusal : Option InputFailure) :
    (r.openConnection m request name start refusal).2.Flowing := by
  unfold Relay.openConnection
  split
  · rename_i ha
    exact h.tryAttach ha
  · dsimp only
    split
    · exact h
    · rename_i input
      have hopened := openSource (r := r.enter .started) h m.settings.sizing input false
      cases refusal with
      | some cause => exact h
      | none =>
        simp only [openSource?]
        split
        · exact h
        · rename_i hj
          split
          · exact h
          · rename_i hadd
            exact (hopened.join? hj).addConnection hadd

end Flowing
end Relay

namespace Session
variable {r : Relay}

/-! ## Steps -/

theorem flowing_naming {name : String} {go : Answer × Relay} (h : r.Flowing) (hgo : go.2.Flowing) :
    (naming r name go).2.Flowing := by
  unfold naming
  split
  · exact h
  · exact hgo

theorem flowing_hearing {name : String} {go : Listener → Answer × Relay} (h : r.Flowing)
    (hgo : ∀ l, (go l).2.Flowing) : (hearing r name go).2.Flowing := by
  unfold hearing
  split
  · exact h
  · exact hgo _

theorem flowing_managed {go : Manager → Answer × Relay} (h : r.Flowing)
    (hgo : ∀ m, (go m).2.Flowing) : (managed r go).2.Flowing := by
  unfold managed
  split
  · exact h
  · exact hgo _

theorem flowing_sourced {name : String} {k : Option SourceId} {go : SourceId → Answer × Relay}
    (h : r.Flowing) (hgo : ∀ k, (go k).2.Flowing) : (sourced r name k go).2.Flowing := by
  unfold sourced
  split
  · exact h
  · exact hgo _

theorem flowing_joining (h : r.Flowing) (k : SourceId) (name : String) :
    (joining r k name).2.Flowing := by
  unfold joining
  split
  · exact h
  · rename_i hj
    exact h.join? hj

theorem flowing_listening {α : Type} {name : String}
    {act : Reader → Feed → Option (α × Reader × Feed)} {answer : α → Answer} (h : r.Flowing)
    (hact : ∀ rd f a rd' f', act rd f = some (a, rd', f') → f.source.Reached →
      f'.source.Reached) : (listening r name act answer).2.Flowing := by
  refine flowing_hearing h fun l => ?_
  split
  · exact h
  · rename_i hl
    exact h.listen? hact hl

theorem reached_onSource {α : Type} {op : Reader → Source → Option (α × Reader × Source)}
    (hop : ∀ rd s p, op rd s = some p → s.Reached → p.2.2.Reached) :
    ∀ rd f a rd' f', onSource op rd f = some (a, rd', f') → f.source.Reached →
      f'.source.Reached := by
  intro rd f a rd' f' h hf
  obtain ⟨p, hp, hlast⟩ := Option.map_eq_some_iff.mp h
  cases hlast
  exact hop rd f.source p hp hf

theorem flowing_attempt {result : Except Failure Relay} (h : r.Flowing)
    (hresult : ∀ s, result = .ok s → s.Flowing) : (attempt r result).2.Flowing := by
  unfold attempt
  split
  · exact h
  · exact hresult _ rfl

theorem flowing_closeInput (h : r.Flowing) (k : SourceId) : (closeInput r k).Flowing := by
  unfold closeInput
  split
  · exact h
  · exact h.updateChannel k fun _ hc => hc

theorem flowing_take (h : r.Flowing) (s : Step) : (take r s).2.Flowing := by
  cases s with
  | source z items gated => exact h.openSource z _ true
  | openReader name z items gated =>
    exact flowing_naming h (flowing_joining (h.openSource z _ false) _ name)
  | attach source name =>
    exact flowing_naming h (flowing_sourced h fun k => flowing_joining h k name)
  | attachBeside other name =>
    exact flowing_naming h (flowing_hearing h fun l => flowing_joining h l.source name)
  | feed source items => exact flowing_sourced h fun k => h.updateChannel k fun _ hc => hc
  | fill name =>
    refine flowing_listening h (reached_onSource fun rd s p hp hs => ?_)
    obtain ⟨q, hq, rfl⟩ := Option.map_eq_some_iff.mp hp
    exact hs.fill? hq
  | consume name n =>
    refine flowing_listening h (reached_onSource fun rd s p hp hs => ?_)
    cases hp
    exact hs.consume rd n
  | read name n => exact flowing_listening h (reached_onSource fun _ _ _ hp hs => hs.read? hp)
  | chunk name => exact flowing_listening h (reached_onSource fun _ _ _ hp hs => hs.chunk? hp)
  | drain name n most =>
    refine flowing_listening h fun rd f d rd' f' hd hf => ?_
    have hdrained := Source.Reached.drain n most rd hf
    rw [Option.some.inj hd] at hdrained
    exact hdrained
  | dropReader name =>
    exact flowing_hearing h fun l => flowing_closeInput (h.leave name) l.source
  | dropSource source => exact flowing_sourced h fun k => flowing_closeInput (h.disown k) k
  | onClose source tag => exact flowing_sourced h fun k => h.updateChannel k fun _ hc => hc
  | onDetach source tag => exact flowing_sourced h fun k => h.updateChannel k fun _ hc => hc
  | run most =>
    cases most with
    | none => exact h.drain
    | some most => exact h.runUpTo most
  | advance delay => exact h.advance delay
  | stop => exact h
  | manager c catalog => exact h.dropManager
  | openConnection name ask start =>
    refine flowing_naming h (flowing_managed h fun m => ?_)
    have hopened := h.openConnection m (request m ask) name
      (start.map fun items => { items := items }) none
    dsimp only
    split <;> rename_i heq <;> rw [heq] at hopened <;> exact hopened
  | tryAttach name ask =>
    refine flowing_naming h (flowing_managed h fun m => ?_)
    split
    · exact h
    · rename_i hattach
      exact h.tryAttach hattach
  | add name ask =>
    refine flowing_hearing h fun l => flowing_managed h fun m => ?_
    split
    · exact h
    · rename_i hadd
      exact h.addConnection hadd
  | remove id => exact flowing_managed h fun m => flowing_attempt h fun _ => h.removeConnection
  | close => exact flowing_managed h fun m => flowing_attempt h fun _ => h.closeAll
  | subscribe s =>
    refine flowing_managed h fun m => ?_
    split
    · exact h
    · exact flowing_attempt h fun _ => h.subscribe
  | unsubscribe tag =>
    unfold take
    dsimp only
    split
    · exact h.unsubscribe tag
    · exact h
  | info id =>
    refine flowing_managed h fun m => ?_
    split <;> exact h
  | properties => cases hm : r.manager <;> simp only [take, hm] <;> exact h
  | describe => cases hm : r.manager <;> simp only [take, hm] <;> exact h
  | dropManager => exact flowing_managed h fun _ => h.dropManager
  | _ => exact flowing_managed h fun _ => h

/-! ## All that a session reports -/

theorem flowing_reported (h : r.Flowing) : (reported r).Flowing := by
  intro k c hc
  simp only [reported, Roster.get?_mapValues] at hc
  obtain ⟨b, hb, rfl⟩ := Option.map_eq_some_iff.mp hc
  exact h k b hb

theorem flowing_settled (live : Bool) (h : r.Flowing) :
    (if live then r.drain else r).settle.Flowing := by
  cases live with
  | true => exact h.drain.settle
  | false => exact h.settle

theorem flowing_after (live : Bool) (steps : List Step) : (after live steps).Flowing := by
  refine List.foldlRecOn (motive := Relay.Flowing) steps (next live) (fun _ _ hc => nomatch hc) ?_
  exact fun r h s _ => flowing_reported (flowing_settled live (flowing_take h s))

/-- In whatever session, a source is reported at a point to which a run of actions leads, and it
keeps the last bytes that its producer has taken in on the way. -/
theorem reported_sources_run (live : Bool) (steps : List Step) :
    ∀ p ∈ play live steps, ∀ found, some found ∈ p.sources →
      ∃ z actions, found.source = (Flow.run z actions).source ∧
        found.source.Keeps (Flow.run z actions).stream := by
  induction steps using List.reverseRecOn with
  | nil => exact fun _ hp => nomatch hp
  | append_singleton steps s ih =>
    intro p hp found hfound
    rw [play_append] at hp
    rcases List.mem_append.mp hp with hbefore | hlast
    · exact ih p hbefore found hfound
    · have hflowing := flowing_settled live (flowing_take (flowing_after live steps) s)
      obtain rfl := List.mem_singleton.mp hlast
      obtain ⟨k, _, hk⟩ := List.mem_map.mp hfound
      obtain ⟨c, hc, rfl⟩ := Option.map_eq_some_iff.mp hk
      obtain ⟨z, actions, hrun⟩ := hflowing k c hc
      exact ⟨z, actions, hrun, hrun ▸ Flow.keeps_run z actions⟩

end Session
end MediaRelay
