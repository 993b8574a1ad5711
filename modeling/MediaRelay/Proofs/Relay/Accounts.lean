import MediaRelay.Proofs.Relay.Handles

/-! # What is posted for sources

When the last handle on a source is given up, this is noted, with the closing tasks that the source
has then. From then on just these are posted for it, one after another, and nothing more for cursors
that have left it.
-/
namespace MediaRelay

def Record.closingOf (k : SourceId) : Record → Option Task
  | .gone j t => if j = k then some t else none
  | _ => none

def Errand.closingOf (k : SourceId) : Errand → Option Task
  | .post (.gone j) t => if j = k then some t else none
  | _ => none

/-- A source ends once; it ends before its closing tasks are posted, and after all that is posted
for the cursors that leave it. -/
def Record.MayPrecede (p q : Record) : Prop :=
  ∀ k ts, (p = .ended k ts → (∀ us, q ≠ .ended k us) ∧ ∀ t, q ≠ .left k t) ∧
    (q = .ended k ts → ∀ t, p ≠ .gone k t)

namespace Site

structure Accounts (x : Site) (es : List Errand) : Prop where
  ended : ∀ k, (∃ ts, .ended k ts ∈ x.log) ↔
    k < x.relay.nextSource ∧ x.relay.channels.get? k = none
  owed : ∀ k t, .post (.gone k) t ∈ es ∨ .gone k t ∈ x.log → ∃ ts, .ended k ts ∈ x.log
  settled : ∀ k ts, .ended k ts ∈ x.log →
    (x.log.filterMap (Record.closingOf k) ++ (es.filterMap (Errand.closingOf k) ++
      x.closing k)).Perm ts
  order : x.log.Pairwise Record.MayPrecede

variable {m : ManagerId} {x y : Site} {es fs more : List Errand} {e : Errand} {k : SourceId}
  {t : Task}

/-- No source comes to its end, and nothing is posted for one. -/
structure Quiet (x y : Site) : Prop where
  log : y.log = x.log
  nextSource : y.relay.nextSource = x.relay.nextSource
  alive : ∀ k, y.relay.channels.get? k = none ↔ x.relay.channels.get? k = none
  closing : ∀ k, y.closing k = x.closing k

theorem quiet_of_channels {r : Relay} (hchannels : r.channels = x.relay.channels)
    (hnext : r.nextSource = x.relay.nextSource) : Quiet x { x with relay := r } :=
  ⟨rfl, hnext, fun _ => by rw [hchannels], fun _ => rfl⟩

theorem quiet_of_grows (h : Ledger.Grows x y) (hlog : y.log = x.log) : Quiet x y where
  log := hlog
  nextSource := h.nextSource
  alive := by
    intro k
    rw [← Option.not_isSome_iff_eq_none, h.alive, Option.not_isSome_iff_eq_none]
  closing := by
    intro k
    have hk := congrArg (Option.map Prod.snd) (h.fading k)
    simp only [Option.map_map, Function.comp_def] at hk
    rw [closing, closing, hk]

theorem channels_serve (r : Relay) (t : Task) :
    (r.serve t).1.channels = r.channels ∧ (r.serve t).1.nextSource = r.nextSource := by
  cases t <;> simp only [Relay.serve, Relay.strikeOff, Relay.giveUp, Relay.perform] <;>
    (repeat' split) <;> exact ⟨rfl, rfl⟩

theorem closingOf_serve {r : Relay} {u : Task} (h : e ∈ (r.serve u).2) (k : SourceId) :
    e.closingOf k = none := by
  cases Relay.follows_of_mem_serve h <;> rfl

namespace Accounts

theorem perm (h : x.Accounts es) (hp : es.Perm fs) : x.Accounts fs where
  ended := h.ended
  owed := fun k t ht => h.owed k t (ht.imp_left hp.mem_iff.mpr)
  settled := by
    intro k ts hk
    refine List.Perm.trans ?_ (h.settled k ts hk)
    exact ((hp.filterMap _).symm.append_right _).append_left _
  order := h.order

theorem same (h : x.Accounts es) (hq : Quiet x y) : y.Accounts es where
  ended := by
    intro k
    rw [hq.log, hq.nextSource, hq.alive]
    exact h.ended k
  owed := by
    rw [hq.log]
    exact h.owed
  settled := by
    intro k
    rw [hq.log, hq.closing]
    exact h.settled k
  order := hq.log ▸ h.order

theorem drop (h : x.Accounts (e :: es)) (he : ∀ k, e.closingOf k = none) : x.Accounts es where
  ended := h.ended
  owed := fun k t ht => h.owed k t (ht.imp_left (List.mem_cons_of_mem e))
  settled := by
    intro k ts hk
    have hbefore := h.settled k ts hk
    rwa [List.filterMap_cons, he k] at hbefore
  order := h.order

theorem add (more : List Errand) (h : x.Accounts es)
    (hmore : ∀ f ∈ more, ∀ k, f.closingOf k = none) : x.Accounts (more ++ es) where
  ended := h.ended
  owed := by
    intro k t ht
    refine h.owed k t (ht.imp_left fun hmem => ?_)
    refine (List.mem_append.mp hmem).resolve_left fun hnew => ?_
    have hnone := hmore _ hnew k
    simp [Errand.closingOf] at hnone
  settled := by
    intro k ts hk
    have hnew : more.filterMap (Errand.closingOf k) = [] :=
      List.filterMap_eq_nil_iff.mpr fun f hf => hmore f hf k
    rw [List.filterMap_append, hnew]
    exact h.settled k ts hk
  order := h.order

theorem quiet (h : x.Accounts (e :: es)) (hq : Quiet x y) (he : ∀ k, e.closingOf k = none)
    (hmore : ∀ f ∈ more, ∀ k, f.closingOf k = none) : y.Accounts (more ++ es) :=
  ((h.same hq).drop he).add more hmore

theorem alone (h : x.Accounts (e :: es)) (hq : Quiet x y) (he : ∀ k, e.closingOf k = none) :
    y.Accounts es := (h.same hq).drop he

theorem opens (h : x.Accounts es) (z : Sizing) (i : Input) :
    Accounts { x with relay := (x.relay.openSource z i false).2 } es where
  ended := by
    intro k
    dsimp only
    rw [h.ended, x.relay.channels_openSource z i]
    by_cases hk : k = x.relay.nextSource
    · simp [hk]
    · have hlt : k < x.relay.nextSource + 1 ↔ k < x.relay.nextSource :=
        ⟨fun hle => Nat.lt_of_le_of_ne (Nat.le_of_lt_succ hle) hk, Nat.lt_succ_of_lt⟩
      simp [hk, Relay.openSource, hlt]
  owed := h.owed
  settled := h.settled
  order := h.order

theorem posts_left (h : x.Accounts (.post (.left k) t :: es))
    (halive : (x.relay.channels.get? k).isSome) :
    Accounts { x with relay := x.relay.post t, log := x.log ++ [.left k t] } es where
  ended := by
    intro j
    simp only [List.mem_append, List.mem_singleton, reduceCtorEq, or_false]
    exact h.ended j
  owed := by
    intro j u hu
    simp only [List.mem_append, List.mem_singleton, reduceCtorEq, or_false] at hu ⊢
    exact h.owed j u (hu.imp_left (List.mem_cons_of_mem _))
  settled := by
    intro j ts hj
    simp only [List.mem_append, List.mem_singleton, reduceCtorEq, or_false] at hj
    have hbefore := h.settled j ts hj
    rw [List.filterMap_cons] at hbefore
    change ((x.log ++ [Record.left k t]).filterMap _ ++ (es.filterMap _ ++ x.closing j)).Perm ts
    simpa [List.filterMap_cons, Record.closingOf, Errand.closingOf] using hbefore
  order := by
    refine List.pairwise_append.mpr ⟨h.order, List.pairwise_singleton _ _, ?_⟩
    intro p hp q hq j ts
    rw [List.mem_singleton.mp hq]
    refine ⟨?_, by rintro ⟨⟩⟩
    rintro rfl
    refine ⟨by rintro _ ⟨⟩, ?_⟩
    rintro u ⟨⟩
    have hdead := ((h.ended k).mp ⟨ts, hp⟩).2
    rw [hdead] at halive
    cases halive

theorem posts_gone (h : x.Accounts (.post (.gone k) t :: es)) :
    Accounts { x with relay := x.relay.post t, log := x.log ++ [.gone k t] } es where
  ended := by
    intro j
    simp only [List.mem_append, List.mem_singleton, reduceCtorEq, or_false]
    exact h.ended j
  owed := by
    intro j u hu
    simp only [List.mem_append, List.mem_singleton, reduceCtorEq, or_false] at hu ⊢
    rcases hu with hpending | hposted | hnew
    · exact h.owed j u (Or.inl (List.mem_cons_of_mem _ hpending))
    · exact h.owed j u (Or.inr hposted)
    · cases hnew
      exact h.owed k t (Or.inl List.mem_cons_self)
  settled := by
    intro j ts hj
    simp only [List.mem_append, List.mem_singleton, reduceCtorEq, or_false] at hj
    have hbefore := h.settled j ts hj
    rw [List.filterMap_cons] at hbefore
    change ((x.log ++ [Record.gone k t]).filterMap _ ++ (es.filterMap _ ++ x.closing j)).Perm ts
    by_cases hjk : k = j
    · simpa [List.filterMap_cons, Record.closingOf, Errand.closingOf, hjk] using hbefore
    · simpa [List.filterMap_cons, Record.closingOf, Errand.closingOf, hjk] using hbefore
  order := by
    refine List.pairwise_append.mpr ⟨h.order, List.pairwise_singleton _ _, ?_⟩
    rintro p _ q hq j ts
    rw [List.mem_singleton.mp hq]
    exact ⟨fun _ => ⟨by rintro _ ⟨⟩, by rintro _ ⟨⟩⟩, by rintro ⟨⟩⟩

theorem ends (h : x.Accounts (.letGo k :: es)) {c : Channel} (hr : x.relay.Seated)
    (hc : x.relay.channels.get? k = some c) :
    (x.endSource k).1.Accounts ((x.endSource k).2 ++ es) := by
  have hend : x.endSource k =
      ({ relay := { x.relay with channels := x.relay.channels.erase k }
         fading := x.fading.put k c
         log := x.log ++ [.ended k c.onClose] },
        [.halt k, .await k, .bury k]) := by
    simp only [endSource, hc]
  have halive : ¬∃ ts, .ended k ts ∈ x.log := by
    rw [h.ended, hc]
    rintro ⟨_, ⟨⟩⟩
  have hunowed : ∀ t, ¬(.post (.gone k) t ∈ es ∨ .gone k t ∈ x.log) := fun t ht =>
    halive (h.owed k t (ht.imp_left (List.mem_cons_of_mem _)))
  rw [hend]
  exact
    { ended := by
        intro j
        dsimp only
        rw [x.relay.channels.get?_erase]
        by_cases hj : j = k
        · subst hj
          have hlt := hr.numbered j (by simp [hc])
          simp [hlt]
        · simp only [List.mem_append, List.mem_singleton, Record.ended.injEq, hj, false_and,
            or_false, if_false]
          exact h.ended j
      owed := by
        intro j t ht
        have hj := h.owed j t (by simpa using ht)
        exact hj.imp fun ts hts => List.mem_append_left _ hts
      settled := by
        intro j ts hj
        simp only [List.mem_append, List.mem_singleton, Record.ended.injEq] at hj
        have hclosing : closing
            { relay := { x.relay with channels := x.relay.channels.erase k }
              fading := x.fading.put k c
              log := x.log ++ [.ended k c.onClose] } j =
              if j = k then c.onClose else x.closing j := by
          simp only [closing, Roster.get?_put]
          split <;> rfl
        rw [hclosing]
        rcases hj with hj | ⟨rfl, rfl⟩
        · have hjk : j ≠ k := by
            rintro rfl
            exact halive ⟨ts, hj⟩
          simpa [hjk, List.filterMap_cons, Record.closingOf, Errand.closingOf] using
            h.settled j ts hj
        · have hlog : x.log.filterMap (Record.closingOf j) = [] := by
            refine List.filterMap_eq_nil_iff.mpr fun p hp => ?_
            cases p <;> simp only [Record.closingOf, ite_eq_right_iff, reduceCtorEq, imp_false]
            rintro rfl
            exact hunowed _ (Or.inr hp)
          have hes : es.filterMap (Errand.closingOf j) = [] := by
            refine List.filterMap_eq_nil_iff.mpr fun e he => ?_
            unfold Errand.closingOf
            split
            · split
              · rename_i hj
                subst hj
                exact (hunowed _ (Or.inl he)).elim
              · rfl
            · rfl
          simp [List.filterMap_cons, Record.closingOf, Errand.closingOf, hlog, hes]
      order := by
        refine List.pairwise_append.mpr ⟨h.order, List.pairwise_singleton _ _, ?_⟩
        rintro p hp q hq j ts
        rw [List.mem_singleton.mp hq]
        constructor
        · rintro rfl
          refine ⟨?_, by rintro _ ⟨⟩⟩
          rintro us ⟨⟩
          exact halive ⟨ts, hp⟩
        · rintro ⟨⟩ t rfl
          exact hunowed t (Or.inr hp) }

theorem buries (h : x.Accounts (.bury k :: es)) (hdead : (x.fading.get? k).isSome →
    k < x.relay.nextSource ∧ x.relay.channels.get? k = none) :
    Accounts { x with fading := x.fading.erase k }
      ((x.closing k).map (.post (.gone k)) ++ es) where
  ended := h.ended
  owed := by
    intro j t ht
    rw [List.mem_append, or_assoc] at ht
    rcases ht with hnew | hold
    · obtain ⟨u, hu, he⟩ := List.mem_map.mp hnew
      cases he
      refine (h.ended k).mpr (hdead ?_)
      cases hc : x.fading.get? k with
      | none => simp [closing, hc] at hu
      | some c => rfl
    · exact h.owed j t (hold.imp_left (List.mem_cons_of_mem _))
  settled := by
    intro j ts hj
    have hbefore := h.settled j ts hj
    have hclosing : closing { x with fading := x.fading.erase k } j =
        if j = k then [] else x.closing j := by
      simp only [closing, Roster.get?_erase]
      split <;> rfl
    have hposts : ((x.closing k).map (Errand.post (.gone k))).filterMap (Errand.closingOf j) =
        if j = k then x.closing k else [] := by
      rw [List.filterMap_map]
      by_cases hjk : j = k
      · simp [hjk, Function.comp_def, Errand.closingOf]
      · have hkj : k ≠ j := fun he => hjk he.symm
        simp [hjk, hkj, Function.comp_def, Errand.closingOf]
    rw [hclosing, List.filterMap_append, hposts]
    by_cases hjk : j = k
    · -- The tasks change sides in the account: they were stored, and are about to be posted.
      subst hjk
      refine List.Perm.trans ?_ hbefore
      simp only [if_true, List.append_nil]
      exact List.perm_append_comm.append_left _
    · simpa [hjk, List.filterMap_cons, Errand.closingOf] using hbefore
  order := h.order

theorem acts (h : x.Accounts (e :: es)) (hl : x.Ledger m (e :: es))
    (hneeds : ∀ f, e.needs = some f → f ∈ es) (hdo : x.do? es e = some (y, more)) :
    y.Accounts (more ++ es) := by
  have hsame : Quiet x x := ⟨rfl, rfl, fun _ => Iff.rfl, fun _ => rfl⟩
  cases e with
  | notify k =>
    cases hdo
    refine h.quiet hsame (fun _ => rfl) fun f hf j => ?_
    obtain ⟨t, _, rfl⟩ := List.mem_map.mp hf
    rfl
  | post cause t =>
    cases hdo
    cases cause with
    | left k =>
      have hgo := hneeds _ rfl
      exact h.posts_left
        ((hl.alive k).mpr (Or.inr (Or.inr (List.mem_cons_of_mem _ hgo))))
    | gone k => exact h.posts_gone
    | other =>
      have hquiet : Quiet x { x with relay := x.relay.post t, log := x.log ++ [] } :=
        ⟨List.append_nil _, rfl, fun _ => Iff.rfl, fun _ => rfl⟩
      exact h.alone hquiet fun _ => rfl
  | join k name =>
    simp only [do?] at hdo
    split at hdo <;> cases hdo
    · exact h.alone hsame fun _ => rfl
    · rename_i hname
      have htouch := Relay.Touch.joining x.relay k (Relay.get?_of_contains hname)
      have hquiet := quiet_of_grows (hl.grows_of_touch htouch) rfl
      exact h.alone hquiet fun _ => rfl
  | letGo k =>
    simp only [do?, Option.some.injEq] at hdo
    split at hdo
    · cases hdo
      exact h.alone hsame fun _ => rfl
    · obtain ⟨c, hc⟩ :=
        Option.isSome_iff_exists.mp ((hl.alive k).mpr (Or.inr (Or.inr List.mem_cons_self)))
      have hends := h.ends hl.seated hc
      rwa [hdo] at hends
  | halt k =>
    cases hdo
    have hgrows := hl.grows_of_touch (.nothing x.relay)
    refine alone h (quiet_of_grows ?_ rfl) fun _ => rfl
    exact { hgrows with fading := Ledger.sameTasks_modify x.fading k (fun _ => rfl) fun _ => rfl }
  | await k =>
    simp only [do?] at hdo
    split at hdo <;> cases hdo
    exact h.alone hsame fun _ => rfl
  | bury k =>
    cases hdo
    exact h.buries fun hk => (hl.faded k hk).imp_right And.left
  | serve t =>
    cases hdo
    obtain ⟨hchannels, hnext⟩ := channels_serve x.relay t
    refine h.quiet (quiet_of_channels hchannels hnext) (fun _ => rfl) fun f hf j => ?_
    exact closingOf_serve hf j
  | onClose k t =>
    cases hdo
    have ht := hl.mild _ List.mem_cons_self t rfl
    have hquiet := quiet_of_grows (hl.grows_of_touch (.onClose x.relay k ht)) rfl
    exact h.alone hquiet fun _ => rfl
  | onDetach k t =>
    cases hdo
    have ht := hl.mild _ List.mem_cons_self t rfl
    have hquiet := quiet_of_grows (hl.grows_of_touch (.onDetach x.relay k ht)) rfl
    exact h.alone hquiet fun _ => rfl
  | timer delay t =>
    cases hdo
    exact h.alone (quiet_of_channels rfl rfl) fun _ => rfl
  | tellAll n =>
    cases hdo
    refine h.quiet hsame (fun _ => rfl) fun f hf j => ?_
    obtain ⟨s, _, rfl⟩ := List.mem_map.mp hf
    rfl
  | tell n s =>
    cases hdo
    obtain ⟨haside, _⟩ := Ledger.Aside.telling x.relay n s
    have hquiet := quiet_of_channels (x := x) haside.channels haside.nextSource
    refine h.quiet hquiet (fun _ => rfl) fun f hf j => ?_
    obtain ⟨_, _, rfl⟩ := Relay.eq_of_mem_telling hf
    rfl
  | answer k =>
    cases hdo
    exact h.alone hsame fun _ => rfl

end Accounts
end Site
end MediaRelay
