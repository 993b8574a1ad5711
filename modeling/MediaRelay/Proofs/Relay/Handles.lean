import MediaRelay.Proofs.Relay.Ledger

/-! # Handles

Every errand passes on what the ledger relies on. Whoever gives up a handle has it before and not
afterwards; what the registry has known of a source is then known to be on the way, and so is the
end of the source.
-/
namespace MediaRelay.Site.Ledger

variable {m : ManagerId} {x y : Site} {es fs : List Errand} {e : Errand} {k : SourceId}
  {t : Task}

theorem perm (h : x.Ledger m es) (hp : es.Perm fs) : x.Ledger m fs := by
  have hmem : ∀ e, e ∈ es ↔ e ∈ fs := fun _ => hp.mem_iff
  have hway : ∀ cause t, x.OnWay es cause t → x.OnWay fs cause t :=
    fun _ _ hway => hway.mono (fun e he => (hmem e).mp he) fun _ hu => hu
  exact
    { h with
      alive := fun k => by rw [h.alive, hmem]
      faded := fun k hk => by rw [← hmem]; exact h.faded k hk
      mild := fun e he => h.mild e ((hmem e).mpr he)
      answered := fun k hk => h.answered k ((hmem _).mpr hk)
      left := fun id k hk => (h.left id k hk).imp_right (.imp (hmem _).mp (hway _ _))
      hung := fun id k hk => (h.hung id k hk).imp_left (hmem _).mp
      listed := fun id n hn => (h.listed id n hn).imp (hmem _).mp (.imp_right (hway _ _)) }

/-! ## Listeners -/

theorem grows_of_touch (h : x.Ledger m es) {s : Relay} (ht : Relay.Touch x.relay s) :
    Grows x { x with relay := s } := by
  cases ht with
  | seats hseats hagenda hmanager htasks =>
    exact
      { seated := hseats.seated h.seated
        heard := fun _ => hseats.heard
        alive := hseats.isSome_iff
        nextSource := hseats.nextSource
        tasks := htasks
        fading := sameTasks_refl x.fading
        books := sameBooks_of_manager hmanager
        running := by dsimp only; rw [hagenda]
        queue := by dsimp only; rw [hagenda]; exact fun _ ht => ht
        asked := by dsimp only; rw [hagenda]; exact fun _ ht => Or.inl ht
        timed := by dsimp only; rw [hagenda]; exact fun _ ht => Or.inl ht }
  | joins hname hjoined =>
    rename_i k name c
    exact
      { seated := hjoined.seated h.seated hname
        heard := fun _ => hjoined.heard hname
        alive := Relay.isSome_channel_iff hjoined.channels hjoined.before
        nextSource := hjoined.nextSource
        tasks := by
          apply Relay.tasksGrow_of_eq
          intro j d e hd he
          rcases hjoined.channel he with ⟨rfl, rfl⟩ | ⟨_, hold⟩
          · cases hd.symm.trans hjoined.before
            exact ⟨rfl, rfl⟩
          · cases hd.symm.trans hold
            exact ⟨rfl, rfl⟩
        fading := sameTasks_refl x.fading
        books := sameBooks_of_manager hjoined.manager
        running := by dsimp only; rw [hjoined.agenda]
        queue := by dsimp only; rw [hjoined.agenda]; exact fun _ ht => ht
        asked := by dsimp only; rw [hjoined.agenda]; exact fun _ ht => Or.inl ht
        timed := by dsimp only; rw [hjoined.agenda]; exact fun _ ht => Or.inl ht }
  | asks ht => exact Aside.grows_post h.seated h.running ht x.fading x.log x.log

theorem opens (h : x.Ledger m es) (z : Sizing) (i : Input) :
    Ledger m { x with relay := (x.relay.openSource z i false).2 }
      (.letGo x.relay.nextSource :: es) := by
  have hget := x.relay.channels_openSource z i
  have hkeep : ∀ {k c}, x.relay.channels.get? k = some c →
      (x.relay.openSource z i false).2.channels.get? k = some c := h.seated.get?_openSource z i
  exact
    { seated := h.seated.openSource z i
      running := h.running
      managed := h.managed
      issued := h.issued
      alive := by
        intro k
        dsimp only
        rw [hget, List.mem_cons]
        split
        · rename_i hk
          simp [hk]
        · rename_i hk
          rw [h.alive]
          simp [hk, Relay.Heard, Relay.Retained, Relay.openSource, Relay.registry]
      faded := by
        intro k hk
        obtain ⟨hlt, hnone, hbury⟩ := h.faded k hk
        refine ⟨Nat.lt_succ_of_lt hlt, ?_, List.mem_cons_of_mem _ hbury⟩
        dsimp only
        rw [hget, if_neg (Nat.ne_of_lt hlt), hnone]
      harmless := by
        rintro k c (hc | hc)
        · rcases Relay.channel_cases hget hc with ⟨_, rfl⟩ | ⟨_, hold⟩
          · exact fun t ht => absurd ht List.not_mem_nil
          · exact h.harmless k c (Or.inl hold)
        · exact h.harmless k c (Or.inr hc)
      mild := by
        intro e he
        rcases List.mem_cons.mp he with rfl | hold
        · rintro t ⟨⟩
        · exact h.mild e hold
      timed := h.timed
      asked := h.asked
      answered := fun k hk => h.answered k (by simpa using hk)
      left := by
        intro id k hk
        exact (h.left id k hk).imp_right (.imp (List.mem_cons_of_mem _) fun hway =>
          hway.mono (fun _ => List.mem_cons_of_mem _) fun _ hu => hu)
      hung := by
        intro id k hk
        refine (h.hung id k hk).imp (List.mem_cons_of_mem _) ?_
        rintro ⟨c, hc, hdetach⟩
        exact ⟨c, hkeep hc, hdetach⟩
      listed := by
        intro id n hn
        refine (h.listed id n hn).imp (List.mem_cons_of_mem _) (.imp ?_ fun hway =>
          hway.mono (fun _ => List.mem_cons_of_mem _) fun _ hu => hu)
        rintro ⟨c, hc, hclose⟩
        exact ⟨c, hc.imp_left hkeep, hclose⟩ }

/-- Whoever leaves a source has a handle on it until it has been told to all that the registry
retains. -/
theorem leaves (h : x.Ledger m es) {name : String} {l : Listener}
    (hl : x.relay.listeners.get? name = some l) (hmay : x.relay.mayLeave name l = true)
    (hothers : .answer l.source ∈ es → ∃ i o, i ≠ name ∧ x.relay.listeners.get? i = some o ∧
      o.source = l.source) :
    Ledger m { x with relay := x.relay.detached name l }
      (.notify l.source :: .letGo l.source :: es) := by
  obtain ⟨c, d, hleft⟩ := Relay.exists_left h.seated hl
  have hbooks := sameBooks_of_manager hleft.manager
  have hheard : ∀ k, (x.relay.detached name l).Heard k → x.relay.Heard k := by
    rintro k ⟨i, o, ho, hk⟩
    exact ⟨i, o, (hleft.listener_of ho).2, hk⟩
  have hmem : ∀ e, e ∈ es → e ∈ .notify l.source :: .letGo l.source :: es :=
    fun e he => List.mem_cons_of_mem _ (List.mem_cons_of_mem _ he)
  have hway : ∀ {cause t}, x.OnWay es cause t →
      OnWay { x with relay := x.relay.detached name l }
        (.notify l.source :: .letGo l.source :: es) cause t :=
    fun hway => hway.mono hmem fun _ hu => by dsimp only; rw [hleft.agenda]; exact hu
  exact
    { seated := hleft.seated h.seated
      running := by
        dsimp only
        rw [hleft.agenda]
        exact h.running
      managed := hbooks.manager.trans h.managed
      issued := by
        dsimp only
        rw [hbooks.retained, hbooks.lastId]
        exact h.issued
      alive := by
        intro k
        dsimp only
        rw [Relay.isSome_channel_iff hleft.channels hleft.before, h.alive, hbooks.retained_iff]
        by_cases hk : k = l.source
        · have halive := (h.alive l.source).mp (by simp [hleft.before])
          simp [hk, halive]
        · have hiff : (x.relay.detached name l).Heard k ↔ x.relay.Heard k :=
            ⟨hheard k, hleft.heard hk⟩
          simp [hk, hiff]
      faded := by
        intro k hk
        obtain ⟨hlt, hnone, hbury⟩ := h.faded k hk
        refine ⟨hleft.nextSource ▸ hlt, ?_, hmem _ hbury⟩
        dsimp only
        rw [hleft.channels, if_neg, hnone]
        rintro rfl
        rw [hleft.before] at hnone
        cases hnone
      harmless := by
        rintro k e (he | he)
        · rcases hleft.channel he with ⟨rfl, rfl⟩ | ⟨_, hold⟩
          · rw [hleft.onDetach, hleft.onClose]
            exact h.harmless _ c (Or.inl hleft.before)
          · exact h.harmless k e (Or.inl hold)
        · exact h.harmless k e (Or.inr he)
      mild := by
        intro e he t ht
        rcases List.mem_cons.mp he with rfl | he
        · cases ht
        · rcases List.mem_cons.mp he with rfl | he
          · cases ht
          · exact h.mild e he t ht
      timed := by
        dsimp only
        rw [hleft.agenda]
        exact h.timed
      asked := by
        dsimp only
        rw [hleft.agenda]
        -- A source that is about to be listed is not left by its last listener.
        intro t ht k hk
        by_cases hkl : k = l.source
        · have hother := List.all_eq_true.mp hmay t ht
          simp only [hk, hkl, ne_eq, not_true_eq_false, decide_false, Bool.false_or,
            List.any_eq_true, Roster.mem_values_iff, decide_eq_true_eq] at hother
          obtain ⟨o, ⟨i, ho⟩, hsource⟩ := hother
          rw [Roster.get?_erase] at ho
          exact ⟨i, o, (hleft.listeners i).trans ho, hsource.trans hkl.symm⟩
        · exact hleft.heard hkl (h.asked t ht k hk)
      answered := by
        intro k hk
        have hk : .answer k ∈ es := by simpa using hk
        by_cases hkl : k = l.source
        · subst hkl
          obtain ⟨i, o, hi, ho, hsource⟩ := hothers hk
          exact ⟨i, o, (hleft.others hi).mpr ho, hsource⟩
        · exact hleft.heard hkl (h.answered k hk)
      left := by
        dsimp only
        rw [hbooks.retained]
        intro id k hk
        by_cases hkl : k = l.source
        · exact Or.inr (Or.inl (hkl ▸ List.mem_cons_self))
        · exact (h.left id k hk).imp (hleft.heard hkl) (.imp (hmem _) hway)
      hung := by
        dsimp only
        rw [hbooks.retained]
        intro id k hk
        refine (h.hung id k hk).imp (hmem _) ?_
        rintro ⟨e, he, hdetach⟩
        by_cases hkl : k = l.source
        · subst hkl
          cases he.symm.trans hleft.before
          exact ⟨d, (hleft.channels _).trans (if_pos rfl), hleft.onDetach ▸ hdetach⟩
        · exact ⟨e, (hleft.channels k).trans ((if_neg hkl).trans he), hdetach⟩
      listed := by
        dsimp only
        rw [hbooks.connections]
        intro id n hn
        refine (h.listed id n hn).imp (hmem _) (.imp ?_ hway)
        rintro ⟨e, he | he, hclose⟩
        · by_cases hkl : n.source = l.source
          · rw [hkl] at he ⊢
            cases he.symm.trans hleft.before
            exact ⟨d, Or.inl ((hleft.channels _).trans (if_pos rfl)), hleft.onClose ▸ hclose⟩
          · exact ⟨e, Or.inl ((hleft.channels _).trans ((if_neg hkl).trans he)), hclose⟩
        · exact ⟨e, Or.inr he, hclose⟩ }

/-! ## Sources that nobody has a handle on -/

theorem isHeld_iff (h : x.Ledger m (e :: es)) (k : SourceId) : x.isHeld es k = true ↔
    x.relay.Heard k ∨ x.relay.Retained k ∨ .letGo k ∈ es := by
  rw [Site.isHeld_iff, Relay.isHeld_iff]
  constructor
  · rintro ((⟨c, hc, howned⟩ | hheard | hretained) | ⟨t, ht, hk⟩ | hgo)
    · rw [h.seated.unowned k c hc] at howned
      cases howned
    · exact Or.inl hheard
    · exact Or.inr (Or.inl hretained)
    · exact Or.inl (h.asked t ht k hk)
    · exact Or.inr (Or.inr hgo)
  · rintro (hheard | hretained | hgo)
    · exact Or.inl (Or.inr (Or.inl hheard))
    · exact Or.inl (Or.inr (Or.inr hretained))
    · exact Or.inr (Or.inr hgo)

theorem ends (h : x.Ledger m (.letGo k :: es)) {c : Channel}
    (hc : x.relay.channels.get? k = some c) (hfree : x.isHeld es k = false) :
    (x.endSource k).1.Ledger m ((x.endSource k).2 ++ es) := by
  have hnobody : ¬(x.relay.Heard k ∨ x.relay.Retained k ∨ .letGo k ∈ es) := by
    rw [← h.isHeld_iff, hfree]
    exact Bool.false_ne_true
  obtain ⟨hdeaf, hfree, hgo⟩ := not_or.mp hnobody |>.imp_right not_or.mp
  have hend : x.endSource k =
      ({ relay := { x.relay with channels := x.relay.channels.erase k }
         fading := x.fading.put k c
         log := x.log ++ [.ended k c.onClose] },
        [.halt k, .await k, .bury k]) := by
    simp only [endSource, hc]
  have hchannels := x.relay.channels.get?_erase k
  have hfading := fun j => x.fading.get?_put k j c
  have hmem : ∀ e ∈ es, e ∈ [.halt k, .await k, .bury k] ++ es :=
    fun e he => List.mem_append_right _ he
  have hstay : ∀ {e : Errand}, e ≠ .letGo k → e ∈ .letGo k :: es →
      e ∈ [.halt k, .await k, .bury k] ++ es :=
    fun hne he => hmem _ ((List.mem_cons.mp he).resolve_left hne)
  have hway : ∀ {cause t}, x.OnWay (.letGo k :: es) cause t → OnWay
      { relay := { x.relay with channels := x.relay.channels.erase k }
        fading := x.fading.put k c
        log := x.log ++ [.ended k c.onClose] } ([.halt k, .await k, .bury k] ++ es) cause t := by
    intro cause t hway
    exact hway.imp (hstay (by rintro ⟨⟩)) (.imp_left (hstay (by rintro ⟨⟩)))
  rw [hend]
  exact
    { seated := h.seated.erase hdeaf
      running := h.running
      managed := h.managed
      issued := h.issued
      alive := by
        intro j
        dsimp only
        rw [hchannels]
        split
        · rename_i hj
          subst hj
          constructor
          · rintro ⟨⟩
          · rintro (hheard | hretained | hgoes)
            · exact (hdeaf hheard).elim
            · exact (hfree hretained).elim
            · exact (hgo (by simpa using hgoes)).elim
        · rename_i hj
          rw [h.alive]
          simp [hj, Relay.Heard, Relay.Retained, Relay.registry]
      faded := by
        intro j hj
        dsimp only at hj ⊢
        rw [hfading] at hj
        rw [hchannels]
        split at hj
        · rename_i hjk
          subst hjk
          exact ⟨h.seated.numbered j (by simp [hc]), if_pos rfl, by simp⟩
        · rename_i hjk
          obtain ⟨hlt, hnone, hbury⟩ := h.faded j hj
          exact ⟨hlt, (if_neg hjk).trans hnone, hstay (by rintro ⟨⟩) hbury⟩
      harmless := by
        rintro j d (hd | hd)
        · dsimp only at hd
          rw [hchannels, Option.ite_none_left_eq_some] at hd
          exact h.harmless j d (Or.inl hd.2)
        · dsimp only at hd
          rw [hfading] at hd
          split at hd
          · cases hd
            exact h.harmless k c (Or.inl hc)
          · exact h.harmless j d (Or.inr hd)
      mild := by
        intro e he t ht
        rcases List.mem_append.mp he with hnew | hold
        · simp only [List.mem_cons, List.not_mem_nil, or_false] at hnew
          rcases hnew with rfl | rfl | rfl <;> cases ht
        · exact h.mild e (List.mem_cons_of_mem _ hold) t ht
      timed := h.timed
      asked := h.asked
      answered := fun j hj => h.answered j (by simpa using hj)
      left := fun id j hj => (h.left id j hj).imp_right (.imp (hstay (by rintro ⟨⟩)) hway)
      hung := by
        intro id j hj
        refine (h.hung id j hj).imp (hstay (by rintro ⟨⟩)) ?_
        rintro ⟨d, hd, hdetach⟩
        refine ⟨d, ?_, hdetach⟩
        dsimp only
        rw [hchannels, if_neg, hd]
        rintro rfl
        exact hfree ⟨id, hj⟩
      listed := by
        intro id n hn
        refine (h.listed id n hn).imp (hstay (by rintro ⟨⟩)) (.imp ?_ hway)
        -- The closing tasks go with the source to those that are fading.
        rintro ⟨d, hd, hclose⟩
        refine ⟨d, ?_, hclose⟩
        dsimp only
        rw [hchannels, hfading]
        by_cases hnk : n.source = k
        · rw [if_pos hnk, if_pos hnk]
          rw [hnk] at hd
          rcases hd with hd | hd
          · exact Or.inr (hc.symm.trans hd)
          · have hdead := (h.faded k (by simp [hd])).2.1
            rw [hc] at hdead
            cases hdead
        · rwa [if_neg hnk, if_neg hnk] }

theorem buries (h : x.Ledger m (.bury k :: es)) :
    Ledger m { x with fading := x.fading.erase k }
      ((x.closing k).map (.post (.gone k)) ++ es) := by
  have hfading := x.fading.get?_erase k
  have hkeep : ∀ {j d}, (x.fading.erase k).get? j = some d → j ≠ k ∧ x.fading.get? j = some d := by
    intro j d hd
    rwa [hfading, Option.ite_none_left_eq_some] at hd
  have hclosing : ∀ e ∈ (x.closing k).map (Errand.post (.gone k)), ∃ c, x.fading.get? k = some c ∧
      ∃ t ∈ c.onClose, .post (.gone k) t = e := by
    intro e he
    obtain ⟨t, ht, he⟩ := List.mem_map.mp he
    cases hc : x.fading.get? k with
    | none => simp [closing, hc] at ht
    | some c => exact ⟨c, rfl, t, by simpa [closing, hc] using ht, he⟩
  have hstay : ∀ {e : Errand}, e ≠ .bury k → e ∈ .bury k :: es →
      e ∈ (x.closing k).map (.post (.gone k)) ++ es :=
    fun hne he => List.mem_append_right _ ((List.mem_cons.mp he).resolve_left hne)
  have hold : ∀ {e : Errand}, (∀ t, e ≠ .post (.gone k) t) →
      e ∈ (x.closing k).map (.post (.gone k)) ++ es → e ∈ es := by
    intro e hne he
    rcases List.mem_append.mp he with hnew | hold
    · obtain ⟨_, _, t, _, he⟩ := hclosing e hnew
      exact absurd he.symm (hne t)
    · exact hold
  have hway : ∀ {cause t}, x.OnWay (.bury k :: es) cause t →
      OnWay { x with fading := x.fading.erase k }
        ((x.closing k).map (.post (.gone k)) ++ es) cause t := by
    intro cause t hway
    exact hway.imp (hstay (by rintro ⟨⟩)) (.imp_left (hstay (by rintro ⟨⟩)))
  exact
    { seated := h.seated
      running := h.running
      managed := h.managed
      issued := h.issued
      alive := by
        intro j
        rw [h.alive]
        refine or_congr_right (or_congr_right ⟨hstay (by rintro ⟨⟩), fun hj => ?_⟩)
        exact List.mem_cons_of_mem _ (hold (by rintro _ ⟨⟩) hj)
      faded := by
        intro j hj
        obtain ⟨d, hd⟩ := Option.isSome_iff_exists.mp hj
        obtain ⟨hjk, hd⟩ := hkeep hd
        obtain ⟨hlt, hnone, hbury⟩ := h.faded j (by simp [hd])
        refine ⟨hlt, hnone, hstay ?_ hbury⟩
        exact fun he => hjk (Errand.bury.inj he)
      harmless := fun j d hd => h.harmless j d (hd.imp_right fun hd => (hkeep hd).2)
      mild := by
        intro e he t ht
        rcases List.mem_append.mp he with hnew | hold
        · obtain ⟨c, hc, _, hu, rfl⟩ := hclosing e hnew
          cases ht
          exact h.harmless k c (Or.inr hc) _ (List.mem_append_right _ hu)
        · exact h.mild e (List.mem_cons_of_mem _ hold) t ht
      timed := h.timed
      asked := h.asked
      answered := fun j hj => h.answered j (List.mem_cons_of_mem _ (hold (by rintro _ ⟨⟩) hj))
      left := fun id j hj => (h.left id j hj).imp_right (.imp (hstay (by rintro ⟨⟩)) hway)
      hung := fun id j hj => (h.hung id j hj).imp_left (hstay (by rintro ⟨⟩))
      listed := by
        intro id n hn
        rcases h.listed id n hn with hpending | ⟨d, hd | hd, hclose⟩ | hon
        · exact Or.inl (hstay (by rintro ⟨⟩) hpending)
        · exact Or.inr (Or.inl ⟨d, Or.inl hd, hclose⟩)
        · -- A closing task of this source is not stored any more, but about to be posted.
          by_cases hnk : n.source = k
          · rw [hnk] at hd
            refine Or.inr (Or.inr (Or.inl (List.mem_append_left _ ?_)))
            rw [hnk, closing, hd]
            exact List.mem_map_of_mem hclose
          · exact Or.inr (Or.inl ⟨d, Or.inr ((hfading _).trans ((if_neg hnk).trans hd)), hclose⟩)
        · exact Or.inr (Or.inr (hway hon)) }

/-! ## The registry -/

theorem strikes (h : x.Ledger m es) {f : Registry → Registry}
    (hlast : (f x.relay.registry).lastId = x.relay.registry.lastId)
    (hconnections : ∀ id n, (f x.relay.registry).connections.get? id = some n →
      x.relay.registry.connections.get? id = some n)
    (hretained : ∀ id k, (f x.relay.registry).retained.get? id = some k →
      x.relay.registry.retained.get? id = some k)
    (hgo : ∀ id k, x.relay.registry.retained.get? id = some k →
      (f x.relay.registry).retained.get? id = none → .letGo k ∈ es) :
    Ledger m { x with relay := x.relay.updateRegistry f } es := by
  obtain ⟨manager, hm, _⟩ := Option.map_eq_some_iff.mp h.managed
  have hregistry := Relay.registry_updateRegistry hm f
  exact
    { seated := h.seated.updateRegistry _
      running := h.running
      managed := (x.relay.manager_updateRegistry f).trans h.managed
      issued := by
        dsimp only
        rw [hregistry, hlast]
        exact fun id k hk => h.issued id k (hretained id k hk)
      alive := by
        intro k
        constructor
        · intro hk
          rcases (h.alive k).mp hk with hheard | ⟨id, hid⟩ | hgoes
          · exact Or.inl hheard
          · -- What is no longer retained has left its handle to the thread.
            cases hf : (f x.relay.registry).retained.get? id with
            | none => exact Or.inr (Or.inr (hgo id k hid hf))
            | some j =>
              have hsame := (hretained id j hf).symm.trans hid
              cases hsame
              exact Or.inr (Or.inl ⟨id, by dsimp only; rw [hregistry]; exact hf⟩)
          · exact Or.inr (Or.inr hgoes)
        · rintro (hheard | ⟨id, hid⟩ | hgoes)
          · exact (h.alive k).mpr (Or.inl hheard)
          · dsimp only at hid
            rw [hregistry] at hid
            exact (h.alive k).mpr (Or.inr (Or.inl ⟨id, hretained id k hid⟩))
          · exact (h.alive k).mpr (Or.inr (Or.inr hgoes))
      faded := h.faded
      harmless := h.harmless
      mild := h.mild
      timed := h.timed
      asked := h.asked
      answered := h.answered
      left := by
        dsimp only
        rw [hregistry]
        exact fun id k hk => h.left id k (hretained id k hk)
      hung := by
        dsimp only
        rw [hregistry]
        exact fun id k hk => h.hung id k (hretained id k hk)
      listed := by
        dsimp only
        rw [hregistry]
        exact fun id n hn => h.listed id n (hconnections id n hn) }

theorem lists (h : x.Ledger m es) {request : Request} (hheard : x.relay.Heard k)
    (hclose : .onClose k (.sourceClosed m (x.relay.registry.lastId + 1)) ∈ es)
    (hdetach : .onDetach k (.cursorLeft m (x.relay.registry.lastId + 1)) ∈ es) :
    Ledger m { x with relay := x.relay.updateRegistry (·.add request k) } es := by
  obtain ⟨manager, hm, _⟩ := Option.map_eq_some_iff.mp h.managed
  have hregistry := Relay.registry_updateRegistry hm (·.add request k)
  have hretained : ∀ id, (x.relay.registry.add request k).retained.get? id =
      if id = x.relay.registry.lastId + 1 then some k else x.relay.registry.retained.get? id :=
    fun id => x.relay.registry.retained.get?_put _ id k
  have hconnections : ∀ id, (x.relay.registry.add request k).connections.get? id =
      if id = x.relay.registry.lastId + 1 then
        some (.ofRequest (x.relay.registry.lastId + 1) request k)
      else x.relay.registry.connections.get? id :=
    fun id => x.relay.registry.connections.get?_put _ id _
  exact
    { seated := h.seated.updateRegistry (·.add request k)
      running := h.running
      managed := (x.relay.manager_updateRegistry _).trans h.managed
      issued := by
        dsimp only
        rw [hregistry]
        intro id j hj
        rw [hretained] at hj
        split at hj
        · rename_i hid
          exact Int.le_of_eq hid
        · exact Int.le_of_lt (Int.lt_add_one_of_le (h.issued id j hj))
      alive := by
        intro j
        have hiff : Relay.Retained (x.relay.updateRegistry (·.add request k)) j ↔
            j = k ∨ x.relay.Retained j := by
          simp only [Relay.Retained, hregistry, hretained]
          constructor
          · rintro ⟨id, hid⟩
            split at hid
            · exact Or.inl (Option.some.inj hid).symm
            · exact Or.inr ⟨id, hid⟩
          · rintro (rfl | ⟨id, hid⟩)
            · exact ⟨x.relay.registry.lastId + 1, if_pos rfl⟩
            · refine ⟨id, (if_neg ?_).trans hid⟩
              rintro rfl
              exact absurd (h.issued _ j hid) (Int.not_le_of_gt (Int.lt_succ _))
        have hsame : (x.relay.updateRegistry (·.add request k)).Heard j ↔ x.relay.Heard j := Iff.rfl
        dsimp only
        rw [hiff, hsame]
        refine (h.alive j).trans ?_
        constructor
        · exact Or.imp_right (Or.imp_left Or.inr)
        · rintro (hj | (rfl | hj) | hj)
          · exact Or.inl hj
          · exact Or.inl hheard
          · exact Or.inr (Or.inl hj)
          · exact Or.inr (Or.inr hj)
      faded := h.faded
      harmless := h.harmless
      mild := h.mild
      timed := h.timed
      asked := h.asked
      answered := h.answered
      left := by
        dsimp only
        rw [hregistry]
        intro id j hj
        rw [hretained] at hj
        split at hj
        · cases hj
          exact Or.inl hheard
        · exact h.left id j hj
      hung := by
        dsimp only
        rw [hregistry]
        intro id j hj
        rw [hretained] at hj
        split at hj
        · rename_i hid
          cases hj
          exact Or.inl (hid ▸ hdetach)
        · exact h.hung id j hj
      listed := by
        dsimp only
        rw [hregistry]
        intro id n hn
        rw [hconnections] at hn
        split at hn
        · rename_i hid
          cases hn
          exact Or.inl (hid ▸ hclose)
        · exact h.listed id n hn }

theorem forgotten {g : Registry} {id i : ConnectionId} {k : SourceId}
    (h : (g.forget id).retained.get? i = some k) : i ≠ id ∧ g.retained.get? i = some k := by
  simpa only [Registry.forget, Roster.get?_erase, Option.ite_none_left_eq_some] using h

theorem handle_of_forget {g : Registry} {id i : ConnectionId} {k : SourceId}
    (hk : g.retained.get? i = some k) (hnone : (g.forget id).retained.get? i = none) :
    .letGo k ∈ (g.retained.get? id).toList.map Errand.letGo := by
  simp only [Registry.forget, Roster.get?_erase] at hnone
  split at hnone
  · rename_i hi
    rw [← hi, hk]
    exact List.mem_cons_self
  · rw [hk] at hnone
    cases hnone

theorem comes_of_retained (h : x.Ledger m es) {id : ConnectionId} :
    ∀ e ∈ (x.relay.registry.retained.get? id).toList.map Errand.letGo, Comes x e := by
  intro e he
  obtain ⟨k, hk, rfl⟩ := List.mem_map.mp he
  refine { held := ?_ }
  rintro j ⟨⟩
  exact (h.alive k).mpr (Or.inr (Or.inl ⟨id, Option.mem_toList.mp hk⟩))

theorem isManagedBy_of_managed (h : x.Ledger m es) : x.relay.isManagedBy m = true := by
  obtain ⟨manager, hm, hid⟩ := Option.map_eq_some_iff.mp h.managed
  simp [Relay.isManagedBy, hm, hid]

theorem givesUp (h : x.Ledger m es) (i : ManagerId) (id : ConnectionId) :
    Ledger m { x with relay := (x.relay.giveUp i id).1 } ((x.relay.giveUp i id).2 ++ es) ∧
      (i = m → (x.relay.giveUp i id).1.registry.retained.get? id = none) := by
  obtain ⟨manager, hm, _⟩ := Option.map_eq_some_iff.mp h.managed
  unfold Relay.giveUp
  split
  · refine ⟨?_, fun _ => ?_⟩
    · dsimp only
      refine strikes (h.add _ h.comes_of_retained) ?_ ?_ ?_ ?_
      · rfl
      · exact fun _ _ hn => hn
      · exact fun _ _ hk => (forgotten hk).2
      · exact fun _ _ hk hnone => List.mem_append_left es (handle_of_forget hk hnone)
    · rw [Relay.registry_updateRegistry hm, Registry.forget, Roster.get?_erase, if_pos rfl]
  · rename_i hmanaged
    refine ⟨h, ?_⟩
    rintro rfl
    exact absurd h.isManagedBy_of_managed hmanaged

theorem strikesOff (h : x.Ledger m es) (i : ManagerId) (id : ConnectionId) :
    Ledger m { x with relay := (x.relay.strikeOff i id).1 } ((x.relay.strikeOff i id).2 ++ es) ∧
      (i = m → (x.relay.strikeOff i id).1.registry.connections.get? id = none) := by
  obtain ⟨manager, hm, _⟩ := Option.map_eq_some_iff.mp h.managed
  unfold Relay.strikeOff
  split
  · refine ⟨?_, fun _ => ?_⟩
    · dsimp only
      refine strikes (h.add _ ?_) ?_ ?_ ?_ ?_
      · intro e he
        rcases List.mem_append.mp he with he | he
        · exact h.comes_of_retained e he
        · simp only [List.mem_cons, List.not_mem_nil, or_false] at he
          rcases he with rfl | rfl
          · exact { mild := by rintro t ⟨⟩; rfl }
          · exact {}
      · rfl
      · exact fun _ _ hn => (Relay.get?_delist hn).2
      · exact fun _ _ hk => (forgotten hk).2
      · intro j k hk hnone
        exact List.mem_append_left es (List.mem_append_left _ (handle_of_forget hk hnone))
    · dsimp only
      rw [Relay.registry_updateRegistry hm]
      exact (x.relay.registry.connections.get?_erase id id).trans (if_pos rfl)
  · rename_i hmanaged
    refine ⟨h, ?_⟩
    rintro rfl
    rw [h.isManagedBy_of_managed, Bool.true_and] at hmanaged
    simpa [Roster.contains] using hmanaged

/-! ## One errand -/

theorem serves (h : x.Ledger m (.serve t :: es)) (hanswer : ∀ k, Relay.adds? t = some k →
    .answer k ∈ es) :
    Ledger m { x with relay := (x.relay.serve t).1 } ((x.relay.serve t).2 ++ es) := by
  obtain ⟨manager, hm, hid⟩ := Option.map_eq_some_iff.mp h.managed
  have hmanaged := h.isManagedBy_of_managed
  cases t with
  | add i request k =>
    have hheard := h.answered k (List.mem_cons_of_mem _ (hanswer k rfl))
    simp only [Relay.serve, hm]
    split
    · have hlast : (x.relay.updateRegistry (·.add request k)).registry.lastId =
          x.relay.registry.lastId + 1 := by
        rw [Relay.registry_updateRegistry hm]
        rfl
      rename_i hi
      rw [hlast, ← hi, hid]
      refine drop (e := .serve (.add i request k)) (perm ?_ List.perm_middle) {}
      apply lists (h.add _ ?_) hheard
      · simp
      · simp
      · intro e he
        simp only [List.mem_cons, List.not_mem_nil, or_false] at he
        rcases he with rfl | rfl | rfl | rfl | rfl
        · exact { mild := by rintro t ⟨⟩; rfl }
        · exact { mild := by rintro t ⟨⟩; rfl }
        · exact { mild := by rintro t ⟨⟩; rfl }
        · exact { mild := by rintro t ⟨⟩; rfl }
        · exact {}
    · exact h.drop {}
  | remove i id => exact ((h.strikesOff i id).1.perm List.perm_middle).drop {}
  | sourceClosed i id =>
    obtain ⟨hstruck, hnone⟩ := h.strikesOff i id
    refine (hstruck.perm List.perm_middle).drop { delisted := ?_ }
    rintro j ⟨⟩
    exact hnone rfl
  | close i =>
    simp only [Relay.serve]
    split
    · refine drop (e := .serve (.close i)) (perm ?_ List.perm_middle) {}
      dsimp only
      refine strikes (h.add _ ?_) ?_ ?_ ?_ ?_
      · intro e he
        rcases List.mem_append.mp he with he | he
        · obtain ⟨k, hk, rfl⟩ := List.mem_map.mp he
          obtain ⟨id, hid⟩ := (x.relay.registry.retained.mem_values_iff k).mp hk
          refine { held := ?_ }
          rintro j ⟨⟩
          exact (h.alive k).mpr (Or.inr (Or.inl ⟨id, hid⟩))
        · rw [List.mem_singleton.mp he]
          exact {}
      · rfl
      · exact fun _ _ hn => absurd hn (by simp [Registry.delistAll])
      · exact fun _ _ hk => absurd hk (by simp)
      · intro id k hk _
        refine List.mem_append_left _ (List.mem_append_left _ (List.mem_map_of_mem ?_))
        exact (x.relay.registry.retained.mem_values_iff k).mpr ⟨id, hk⟩
    · exact h.drop {}
  | subscribe i s =>
    have haside : Aside x.relay (x.relay.updateRegistry (·.subscribe s)) :=
      .updateRegistry x.relay (fun _ => rfl) (fun _ => rfl) fun _ => rfl
    simp only [Relay.serve, Relay.perform]
    split
    · exact (h.grows (haside.grows_of_agenda h.seated rfl x.fading x.log)).drop {}
    · exact h.drop {}
  | unsubscribe i id =>
    have haside : Aside x.relay (x.relay.updateRegistry (·.unsubscribe id)) :=
      .updateRegistry x.relay (fun _ => rfl) (fun _ => rfl) fun _ => rfl
    simp only [Relay.serve, Relay.perform]
    split
    · exact (h.grows (haside.grows_of_agenda h.seated rfl x.fading x.log)).drop {}
    · exact h.drop {}
  | cursorLeft i id =>
    obtain ⟨hgiven, hnone⟩ := h.givesUp i id
    refine (hgiven.perm List.perm_middle).drop { released := ?_ }
    rintro j ⟨⟩
    exact hnone rfl
  | windowElapsed i id => exact ((h.givesUp i id).1.perm List.perm_middle).drop {}
  | announce =>
    have haside : Aside x.relay (x.relay.serve .announce).1 := .of_manager rfl rfl rfl rfl
    exact (h.grows (haside.grows_of_agenda h.seated rfl x.fading x.log)).drop {}
  | enter entry =>
    have haside : Aside x.relay (x.relay.enter entry) := .of_manager rfl rfl rfl rfl
    exact (h.grows (haside.grows_of_agenda h.seated rfl x.fading x.log)).drop {}

/-- An errand is done. What it needs, the threads still have before them. -/
theorem acts (h : x.Ledger m (e :: es))
    (hneeds : ∀ d ∈ e :: es, ∀ f, d.needs = some f → f ∈ es) {more : List Errand}
    (hdo : x.do? es e = some (y, more)) : y.Ledger m (more ++ es) := by
  have hmild := h.mild e List.mem_cons_self
  cases e with
  | notify k =>
    cases hdo
    refine drop (perm (h.add _ ?_) List.perm_middle) { notified := ?_ }
    · intro e he
      obtain ⟨t, ht, rfl⟩ := List.mem_map.mp he
      refine { mild := ?_ }
      rintro u ⟨⟩
      cases hc : x.relay.channels.get? k with
      | none => simp [hc] at ht
      | some c =>
        rw [hc] at ht
        exact h.harmless k c (Or.inl hc) t (List.mem_append_left _ ht)
    · rintro j ⟨⟩ id hid
      rcases h.hung id k hid with hpending | ⟨c, hc, hdetach⟩
      · exact Or.inl (h.answered k (List.mem_cons_of_mem _ (hneeds _ hpending _ rfl)))
      · refine Or.inr (Or.inl (List.mem_append_left _ ?_))
        rw [hc]
        exact List.mem_map_of_mem hdetach
  | post cause t =>
    cases hdo
    have ht : ∀ k, Relay.adds? t = some k → x.relay.Heard k := by
      intro k hk
      rw [hmild t rfl] at hk
      cases hk
    have hposted : t ∈ (x.relay.post t).agenda.queue := by
      simp [Relay.post, Agenda.post, h.running]
    refine drop (h.grows (Aside.grows_post h.seated h.running ht x.fading _ _))
      { left := ?_, gone := ?_ }
    · rintro k id ⟨⟩
      exact hposted
    · rintro k id ⟨⟩
      exact hposted
  | join k name =>
    simp only [do?] at hdo
    split at hdo <;> cases hdo
    · exact h.drop {}
    · rename_i hname
      have htouch := Relay.Touch.joining x.relay k (Relay.get?_of_contains hname)
      exact (h.grows (h.grows_of_touch htouch)).drop {}
  | letGo k =>
    simp only [do?, Option.some.injEq] at hdo
    split at hdo
    · rename_i hheld
      cases hdo
      refine h.drop { held := ?_ }
      rintro j ⟨⟩ _
      exact (h.isHeld_iff k).mp hheld
    · rename_i hfree
      obtain ⟨c, hc⟩ :=
        Option.isSome_iff_exists.mp ((h.alive k).mpr (Or.inr (Or.inr List.mem_cons_self)))
      have hends := h.ends hc (Bool.not_eq_true _ |>.mp hfree)
      rwa [hdo] at hends
  | halt k =>
    cases hdo
    refine drop (h.grows ?_) {}
    have hgrows := h.grows_of_touch (.nothing x.relay)
    exact { hgrows with fading := sameTasks_modify x.fading k (fun _ => rfl) fun _ => rfl }
  | await k =>
    simp only [do?] at hdo
    split at hdo <;> cases hdo
    exact h.drop {}
  | bury k =>
    cases hdo
    exact h.buries
  | serve t =>
    cases hdo
    apply h.serves
    intro k hk
    exact hneeds _ List.mem_cons_self _ (by simp [Errand.needs, hk])
  | onClose k t =>
    cases hdo
    have hheard := h.answered k (List.mem_cons_of_mem _ (hneeds _ List.mem_cons_self _ rfl))
    obtain ⟨c, hc⟩ := Relay.exists_channel h.seated hheard
    have htouch := Relay.Touch.onClose x.relay k (hmild t rfl)
    refine drop (h.grows (h.grows_of_touch htouch)) { closes := ?_ }
    rintro j id ⟨⟩
    have hget := Relay.get?_updateChannel hc fun c =>
      { c with onClose := c.onClose ++ [.sourceClosed m id] }
    exact ⟨_, Or.inl ((hget k).trans (if_pos rfl)), by simp⟩
  | onDetach k t =>
    cases hdo
    have hheard := h.answered k (List.mem_cons_of_mem _ (hneeds _ List.mem_cons_self _ rfl))
    obtain ⟨c, hc⟩ := Relay.exists_channel h.seated hheard
    have htouch := Relay.Touch.onDetach x.relay k (hmild t rfl)
    refine drop (h.grows (h.grows_of_touch htouch)) { hung := ?_ }
    rintro j id ⟨⟩
    have hget := Relay.get?_updateChannel hc fun c =>
      { c with onDetach := c.onDetach ++ [.cursorLeft m id] }
    exact ⟨_, (hget k).trans (if_pos rfl), by simp⟩
  | timer delay t =>
    cases hdo
    have hgrows := Aside.grows_timer h.seated h.running delay (hmild t rfl) x.fading x.log
    exact (h.grows hgrows).drop {}
  | tellAll n =>
    cases hdo
    refine drop (perm (h.add _ ?_) List.perm_middle) {}
    intro e he
    obtain ⟨s, _, rfl⟩ := List.mem_map.mp he
    exact {}
  | tell n s =>
    cases hdo
    obtain ⟨haside, hagenda⟩ := Aside.telling x.relay n s
    have hgrown := h.grows (haside.grows_of_agenda h.seated hagenda x.fading x.log)
    refine drop (perm (hgrown.add _ ?_) List.perm_middle) {}
    intro e he
    obtain ⟨_, _, rfl⟩ := Relay.eq_of_mem_telling he
    exact {}
  | answer k =>
    cases hdo
    exact h.drop {}

/-! ## The next task -/

theorem comes_begin (h : x.Ledger m es) {t : Task} (ht : t ∈ x.relay.agenda.queue) :
    ∀ e ∈ Crew.begin t, Comes x e := by
  intro e he
  rcases List.mem_cons.mp he with rfl | he
  · exact {}
  · simp only [List.mem_flatMap, Option.mem_toList, List.mem_cons, List.not_mem_nil,
      or_false] at he
    obtain ⟨k, hk, he⟩ := he
    have hheard := h.asked t ht k hk
    rcases he with rfl | rfl
    · refine { held := ?_ }
      rintro j ⟨⟩
      exact (h.alive k).mpr (Or.inl hheard)
    · refine { answered := ?_ }
      rintro j ⟨⟩
      exact hheard

/-- A task is taken from the queue by a thread that is going to do it. -/
theorem takes (h : x.Ledger m es) {t : Task} {queue : List Task}
    (hq : x.relay.agenda.queue = t :: queue) (hserve : .serve t ∈ es) :
    Ledger m { x with relay := { x.relay with agenda := { x.relay.agenda with queue := queue } } }
      es := by
  have hseats : Relay.SameSeats x.relay
      { x.relay with agenda := { x.relay.agenda with queue := queue } } :=
    ⟨rfl, fun _ => rfl, fun _ => rfl⟩
  have hway : ∀ {cause u}, x.OnWay es cause u → OnWay
      { x with relay := { x.relay with agenda := { x.relay.agenda with queue := queue } } }
      es cause u := by
    rintro cause u (hpost | hdoing | hqueue)
    · exact Or.inl hpost
    · exact Or.inr (Or.inl hdoing)
    · rw [hq] at hqueue
      rcases List.mem_cons.mp hqueue with rfl | hrest
      · exact Or.inr (Or.inl hserve)
      · exact Or.inr (Or.inr hrest)
  exact
    { seated := hseats.seated h.seated
      running := h.running
      managed := h.managed
      issued := h.issued
      alive := h.alive
      faded := h.faded
      harmless := h.harmless
      mild := h.mild
      timed := h.timed
      asked := fun u hu => h.asked u (hq ▸ List.mem_cons_of_mem t hu)
      answered := h.answered
      left := fun id k hk => (h.left id k hk).imp_right (.imp_right hway)
      hung := h.hung
      listed := fun id n hn => (h.listed id n hn).imp_right (.imp_right hway) }

end MediaRelay.Site.Ledger
