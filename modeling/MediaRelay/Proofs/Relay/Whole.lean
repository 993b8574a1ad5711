import Mathlib.Data.List.Induction
import MediaRelay.Proofs.Relay.Unbroken

/-! # Moves in one piece

Every move of a relay is made by a thread that does all its errands without a break; so what moves
make of a relay, strokes make of it too, as long as no source goes whose producer sits in a read.
-/
namespace MediaRelay

namespace Crew

/-- Nothing is under way. -/
structure AtRest (x : Crew) : Prop where
  thread : x.thread = []
  calls : x.calls.flatten = []
  fading : x.fading = .empty

variable {x : Crew} {y : Site} {es rest : List Errand}

theorem thread_does (h : x.toSite.Does es y rest) (hthread : x.thread = es)
    (hcalls : x.calls.flatten = []) :
    ∃ strokes : List Stroke, strokes.foldl make x = { x with toSite := y, thread := rest } := by
  generalize hx : x.toSite = site at h
  induction h generalizing x with
  | refl =>
    refine ⟨[], ?_⟩
    rw [← hthread, ← hx]
    rfl
  | @step _ b _ e rest more _ hdo _ ih =>
    have hgo : x.make .thread = { x with toSite := b, thread := more ++ rest } := by
      simp only [make, goOn, hthread, hcalls, List.append_nil]
      rw [hx, hdo]
    obtain ⟨strokes, hstrokes⟩ :=
      ih (x := x.make .thread) (by rw [hgo]) (by rw [hgo]; exact hcalls) (by rw [hgo])
    exact ⟨.thread :: strokes, hstrokes.trans (by rw [hgo])⟩

theorem caller_does {idle : List (List Errand)} (h : x.toSite.Does es y rest)
    (hthread : x.thread = []) (hidle : idle.flatten = []) (hcalls : x.calls = idle ++ [es]) :
    ∃ strokes : List Stroke,
      strokes.foldl make x = { x with toSite := y, calls := idle ++ [rest] } := by
  generalize hx : x.toSite = site at h
  induction h generalizing x with
  | refl =>
    refine ⟨[], ?_⟩
    rw [← hcalls, ← hx]
    rfl
  | @step _ b _ e rest more _ hdo _ ih =>
    have hset : ∀ fs, (idle ++ [e :: rest]).set idle.length fs = idle ++ [fs] := by simp
    have hgo : x.make (.caller idle.length) =
        { x with toSite := b, calls := idle ++ [more ++ rest] } := by
      simp only [make, goOnCall, hcalls, List.getElem?_concat_length, hset, hthread, hidle,
        List.flatten_append, List.flatten_singleton, List.nil_append]
      rw [hx, hdo]
    obtain ⟨strokes, hstrokes⟩ := ih (x := x.make (.caller idle.length))
      (by rw [hgo]; exact hthread) (by rw [hgo]) (by rw [hgo])
    exact ⟨.caller idle.length :: strokes, hstrokes.trans (by rw [hgo])⟩

theorem AtRest.thread_worksOff {r s : Relay} (h : x.AtRest) (hworks : r.WorksOff es s [])
    (hprompt : r.Prompt s) : ∃ strokes : List Stroke,
      (strokes.foldl make { x with relay := r, thread := es }).AtRest ∧
        (strokes.foldl make { x with relay := r, thread := es }).relay = s := by
  obtain ⟨y, hdoes, hrelay, hfading⟩ := hworks.does hprompt { x with relay := r } rfl h.fading
  obtain ⟨strokes, hstrokes⟩ :=
    thread_does (x := { x with relay := r, thread := es }) hdoes rfl h.calls
  refine ⟨strokes, ?_, ?_⟩ <;> rw [hstrokes]
  · exact ⟨rfl, h.calls, hfading⟩
  · exact hrelay

theorem AtRest.caller_worksOff {r s : Relay} (h : x.AtRest) (hworks : r.WorksOff es s [])
    (hprompt : r.Prompt s) : ∃ strokes : List Stroke,
      (strokes.foldl make { x with relay := r, calls := x.calls ++ [es] }).AtRest ∧
        (strokes.foldl make { x with relay := r, calls := x.calls ++ [es] }).relay = s := by
  obtain ⟨y, hdoes, hrelay, hfading⟩ := hworks.does hprompt { x with relay := r } rfl h.fading
  obtain ⟨strokes, hstrokes⟩ :=
    caller_does (x := { x with relay := r, calls := x.calls ++ [es] }) hdoes h.thread h.calls rfl
  refine ⟨strokes, ?_, ?_⟩ <;> rw [hstrokes]
  · exact ⟨h.thread, by simp [h.calls], hfading⟩
  · exact hrelay

theorem AtRest.opens (h : x.AtRest) (hcalm : x.relay.Calm) {name : String}
    (hname : ¬x.relay.listeners.contains name) (z : Sizing) (i : Input) :
    ∃ strokes : List Stroke, (strokes.foldl make x).AtRest ∧
      (strokes.foldl make x).relay = x.relay.make (.openReader name z i) := by
  let opened := (x.relay.openSource z i false).2
  let k := x.relay.nextSource
  have hget : ∀ j, opened.channels.get? j =
      if j = k then some { feed := .start z i } else x.relay.channels.get? j :=
    fun j => x.relay.channels.get?_put k j _
  have hopened : opened.Calm := by
    refine ⟨hcalm.running, fun j c hc t ht => ?_, hcalm.asked⟩
    rw [hget] at hc
    split at hc
    · cases hc
      cases ht
    · exact hcalm.harmless j c hc t ht
  have hmake : x.relay.make (.openReader name z i) = opened.joining k name := by
    simp only [Relay.make, if_neg hname]
    rfl
  have hheard : (opened.joining k name).Heard k := by
    refine ⟨name, ⟨k, { cursor := (Feed.start z i).source.nextCursor }⟩, ?_, rfl⟩
    rw [Relay.joining, Relay.join?_of_start ((hget k).trans (if_pos rfl)) rfl]
    exact (Roster.get?_put _ _ _ _).trans (if_pos rfl)
  have hworks := Relay.WorksOff.joins (r := opened) hopened hname
    ((Relay.isHeld_iff _ k).mpr (Or.inr (Or.inl hheard)))
  obtain ⟨strokes, hstrokes⟩ := h.caller_worksOff hworks (opened.prompt_joining k name)
  rw [hmake]
  exact ⟨.openReader name z i :: strokes, hstrokes⟩

theorem AtRest.triesAttach (h : x.AtRest) (hcalm : x.relay.Calm) (request : Request)
    (name : String) : ∃ strokes : List Stroke, (strokes.foldl make x).AtRest ∧
      (strokes.foldl make x).relay = x.relay.make (.tryAttach request name) := by
  by_cases hname : x.relay.listeners.contains name
  · exact ⟨[], h, by simp only [Relay.make, hname]; rfl⟩
  · cases hcandidate : x.relay.registry.candidate? request.key with
    | none =>
      refine ⟨[], h, ?_⟩
      simp only [Relay.make, Relay.tryAttach, hcandidate, hname]
      rfl
    | some offer =>
      obtain ⟨id, k⟩ := offer
      have hmake : x.relay.make (.tryAttach request name) = x.relay.joining k name := by
        simp only [Relay.make, Relay.tryAttach, hcandidate, hname, Relay.joining]
        cases x.relay.join? k name <;> rfl
      have hretained : (x.relay.joining k name).Retained k := by
        refine ⟨id, ?_⟩
        have hid := (Registry.foremost_of_candidate? hcandidate).1.2
        unfold Relay.joining
        cases hj : x.relay.join? k name with
        | none => exact hid
        | some joined =>
          obtain ⟨_, hjoined⟩ := Relay.joined_of_join? (l := joined.1) (s := joined.2) hj
          rw [Option.map_some, Option.getD_some, Relay.registry, hjoined.manager]
          exact hid
      have hworks := Relay.WorksOff.joins hcalm hname
        ((Relay.isHeld_iff _ k).mpr (Or.inr (Or.inr hretained)))
      obtain ⟨strokes, hstrokes⟩ :=
        h.caller_worksOff hworks (Relay.prompt_joining x.relay k name)
      refine ⟨.tryAttach request name :: strokes, ?_⟩
      rw [hmake, List.foldl_cons, make, hcandidate]
      exact hstrokes

theorem AtRest.leaves (h : x.AtRest) (hcalm : x.relay.Calm) (name : String)
    (hprompt : x.relay.Prompt (x.relay.make (.leave name))) :
    ∃ strokes : List Stroke, (strokes.foldl make x).AtRest ∧
      (strokes.foldl make x).relay = x.relay.make (.leave name) := by
  cases hl : x.relay.listeners.get? name with
  | none => exact ⟨[], h, by simp only [Relay.make, hl]; rfl⟩
  | some l =>
    by_cases hmay : x.relay.mayLeave name l
    · have hmake : x.relay.make (.leave name) = x.relay.leave name := by
        simp only [Relay.make, hl, if_pos hmay]
      have herrands : x.errands = [] := by rw [errands, h.thread, h.calls]; rfl
      have hfewer : x.relay.Fewer (x.relay.detached name l) :=
        x.relay.fewer_updateChannel l.source fun c => by
          simp only [Source.detach]
          split <;> simp
      rw [hmake] at hprompt ⊢
      obtain ⟨strokes, hstrokes⟩ := h.caller_worksOff (Relay.WorksOff.leaves hcalm hl hmay)
        (hprompt.right hfewer)
      refine ⟨.leave name :: strokes, ?_⟩
      have hstays : x.mayLeave name l = true := by simp [mayLeave, hmay, herrands]
      rw [List.foldl_cons, make, hl]
      simp only [if_pos hstays]
      exact hstrokes
    · exact ⟨[], h, by simp only [Relay.make, hl, if_neg hmay]; rfl⟩

theorem AtRest.runs (h : x.AtRest) (hcalm : x.relay.Calm)
    (hprompt : x.relay.Prompt (x.relay.make .run)) :
    ∃ strokes : List Stroke, (strokes.foldl make x).AtRest ∧
      (strokes.foldl make x).relay = x.relay.make .run := by
  cases hqueue : x.relay.agenda.queue with
  | nil => exact ⟨[], h, by simp [Relay.make, Relay.runNext?, Agenda.next?, hqueue]⟩
  | cons t queue =>
    let taken := { x.relay with agenda := { x.relay.agenda with queue := queue } }
    have hmake : x.relay.make .run = taken.perform t := by
      simp [Relay.make, Relay.runNext?, Agenda.next?, hqueue, taken]
    have hin : ∀ {u}, u ∈ queue → u ∈ x.relay.agenda.queue := fun hu =>
      hqueue ▸ List.mem_cons_of_mem t hu
    have htaken : taken.Calm :=
      ⟨hcalm.running, hcalm.harmless, fun u hu => hcalm.asked u (hin hu)⟩
    have hworks := Relay.WorksOff.begun (t := t) htaken
      (hcalm.asked t (hqueue ▸ List.mem_cons_self))
    rw [hmake] at hprompt ⊢
    obtain ⟨strokes, hstrokes⟩ := h.thread_worksOff hworks (hprompt.right (.of_eq rfl))
    refine ⟨.thread :: strokes, ?_⟩
    simp only [List.foldl_cons, make, goOn, h.thread, hqueue]
    exact hstrokes

theorem AtRest.fires (h : x.AtRest) (hcalm : x.relay.Calm) (n : Nat)
    (hprompt : x.relay.Prompt (x.relay.make (.fire n))) :
    ∃ strokes : List Stroke, (strokes.foldl make x).AtRest ∧
      (strokes.foldl make x).relay = x.relay.make (.fire n) := by
  cases htimer : x.relay.agenda.timers[n]? with
  | none => exact ⟨[], h, by simp [Relay.make, Relay.fire?, htimer]⟩
  | some t =>
    let fired := { x.relay with agenda := { x.relay.agenda with
      timers := x.relay.agenda.timers.eraseIdx n
      clock := max x.relay.agenda.clock t.due } }
    have hmake : x.relay.make (.fire n) = fired.perform t.task := by
      simp [Relay.make, Relay.fire?, htimer, fired]
    have hfired : fired.Calm := ⟨hcalm.running, hcalm.harmless, hcalm.asked⟩
    have hworks : fired.WorksOff [.serve t.task] (fired.perform t.task) [] :=
      Relay.WorksOff.performs fired hfired t.task fun j hj => absurd hj List.not_mem_nil
    rw [hmake] at hprompt ⊢
    obtain ⟨strokes, hstrokes⟩ := h.thread_worksOff hworks (hprompt.right (.of_eq rfl))
    refine ⟨.fire n :: strokes, ?_⟩
    simp only [List.foldl_cons, make, h.thread, htimer]
    exact hstrokes

/-- Where everything is at rest, a move is made by strokes, unless a source goes whose producer sits
in a read. -/
theorem AtRest.moves (h : x.AtRest) (hcalm : x.relay.Calm) (v : Move)
    (hprompt : x.relay.Prompt (x.relay.make v)) :
    ∃ strokes : List Stroke, (strokes.foldl make x).AtRest ∧
      (strokes.foldl make x).relay = x.relay.make v := by
  have hone : ∀ w : Stroke, (x.make w).relay = x.relay.make v → (x.make w).AtRest →
      ∃ strokes : List Stroke, (strokes.foldl make x).AtRest ∧
        (strokes.foldl make x).relay = x.relay.make v :=
    fun w hrelay hrest => ⟨[w], hrest, hrelay⟩
  have hsame : ∀ r, ({ x with relay := r } : Crew).AtRest := fun r => ⟨h.thread, h.calls, h.fading⟩
  have hfading : ∀ (r : Relay) k (f : Channel → Channel),
      ({ x with relay := r, fading := x.fading.modify k f } : Crew).AtRest := by
    intro r k f
    refine ⟨h.thread, h.calls, ?_⟩
    dsimp only
    rw [h.fading]
    rfl
  cases v with
  | openReader name z i =>
    by_cases hname : x.relay.listeners.contains name
    · exact ⟨[], h, by simp only [Relay.make, if_pos hname]; rfl⟩
    · exact h.opens hcalm hname z i
  | attach other name => exact hone (.attach other name) rfl (hsame _)
  | tryAttach request name => exact h.triesAttach hcalm request name
  | call name call => exact hone (.call name call) rfl (hsame _)
  | leave name => exact h.leaves hcalm name hprompt
  | produce k => exact hone (.produce k) rfl (hfading _ k _)
  | feed k items => exact hone (.feed k items) rfl (hfading _ k _)
  | onClose k tag => exact hone (.onClose k tag) rfl (hsame _)
  | onDetach k tag => exact hone (.onDetach k tag) rfl (hsame _)
  | add name request => exact hone (.add name request) rfl (hsame _)
  | remove id => exact hone (.remove id) rfl (hsame _)
  | close => exact hone .close rfl (hsame _)
  | subscribe s => exact hone (.subscribe s) rfl (hsame _)
  | unsubscribe id => exact hone (.unsubscribe id) rfl (hsame _)
  | subscriptions all => exact hone (.subscriptions all) rfl (hsame _)
  | run => exact h.runs hcalm hprompt
  | fire n => exact h.fires hcalm n hprompt

theorem Sound.calm {m : ManagerId} (h : x.Sound m) : x.relay.Calm :=
  ⟨h.ledger.running, fun k c hc => h.ledger.harmless k c (Or.inl hc), h.ledger.asked⟩

/-- What any moves make of a relay is what some strokes make of it, as long as no source goes whose
producer sits in a read. -/
theorem runs_moves (c : Settings) (catalog : Catalog) (moves : List Move)
    (hprompt : ∀ before v after, moves = before ++ v :: after →
      (Relay.runMoves c catalog before).Prompt (Relay.runMoves c catalog (before ++ [v]))) :
    ∃ strokes, (run c catalog strokes).AtRest ∧
      (run c catalog strokes).relay = Relay.runMoves c catalog moves := by
  induction moves using List.reverseRecOn with
  | nil => exact ⟨[], ⟨rfl, rfl, rfl⟩, rfl⟩
  | append_singleton moves v ih =>
    obtain ⟨strokes, hrest, hrelay⟩ := ih fun before w after he =>
      hprompt before w (after ++ [v]) (by rw [he]; simp)
    have hlast : Relay.runMoves c catalog (moves ++ [v]) =
        (Relay.runMoves c catalog moves).make v := by simp [Relay.runMoves]
    have hgoes := hprompt moves v [] rfl
    rw [hlast, ← hrelay] at hgoes ⊢
    obtain ⟨more, hmore, hmake⟩ := hrest.moves (Sound.run c catalog strokes).calm v hgoes
    have hall : run c catalog (strokes ++ more) = more.foldl make (run c catalog strokes) :=
      List.foldl_append
    exact ⟨strokes ++ more, hall ▸ hmore, hall ▸ hmake⟩

end Crew
end MediaRelay
