import MediaRelay.Proofs.Relay.Callers

/-! # Two calls for the same stream

A call lists its source only after it has looked for another, and an input is started in between. So
a call that looks while the other is anywhere between these steps finds nothing: each starts an
input, and each has a connection of its own. The calls share a source exactly if one of them looks
only when the connection of the other is listed.
-/
namespace MediaRelay

/-- The calls stand like this at a relay, which has listed so many connections under the key before
them. What the registry offers, and what is queued to be listed, is theirs. -/
structure Race (key : OutputKey) (before : Nat) (r : Relay) (inputs : Nat) (s t : Caller.Stage) :
    Prop where
  managed : ∃ m, r.isManagedBy m = true
  running : r.agenda.stopped = false
  hung : r.Hung
  secure : ∀ l, s.listener? = some l ∨ t.listener? = some l → r.Secure l
  apart : ∀ k, s.own? = some k → t.own? ≠ some k
  offered : ∀ k, (∃ id, r.registry.Offers key id k) ↔ s.listed? = some k ∨ t.listed? = some k
  pending : ∀ k, k ∈ r.pending key ↔ s.waiting? = some k ∨ t.waiting? = some k
  once : (r.pending key).Nodup
  joined : ∀ k, s.joined? = some k → t.listed? = some k
  joinedBy : ∀ k, t.joined? = some k → s.listed? = some k
  inputs : inputs = s.inputs + t.inputs
  serving : r.registry.serving key = before + s.listed?.toList.length + t.listed?.toList.length

namespace Race
variable {key : OutputKey} {before n : Nat} {r q : Relay} {s t : Caller.Stage} {k : SourceId}
  {c : Caller}

theorem swap (h : Race key before r n s t) : Race key before r n t s where
  managed := h.managed
  running := h.running
  hung := h.hung
  secure := fun l hl => h.secure l hl.symm
  apart := fun k hk hk' => h.apart k hk' hk
  offered := fun k => (h.offered k).trans or_comm
  pending := fun k => (h.pending k).trans or_comm
  once := h.once
  joined := h.joinedBy
  joinedBy := h.joined
  inputs := h.inputs.trans (Nat.add_comm _ _)
  serving := h.serving.trans (Nat.add_right_comm _ _ _)

theorem unseen (h : Race key before r n s t) (hq : r.Serves key none q) :
    Race key before q n s t where
  managed := h.managed.imp fun m hm => (hq.managed m).trans hm
  running := hq.stopped.trans h.running
  hung := hq.hung
  secure := fun l hl => hq.secure l (h.secure l hl)
  apart := h.apart
  offered := fun k => (hq.offers k).trans (by simpa using h.offered k)
  pending := fun k => by rw [← h.pending k, hq.pending, Option.toList_none, List.nil_append]
  once := by simpa [hq.pending] using h.once
  joined := h.joined
  joinedBy := h.joinedBy
  inputs := h.inputs
  serving := hq.serving.trans h.serving

theorem serve_waiting {l : Listener} (h : Race key before r n (.waiting l) t)
    (hq : r.Serves key (some l.source) q) : Race key before q n (.listed l) t := by
  have hpending : r.pending key = l.source :: q.pending key := hq.pending
  have honce := h.once
  rw [hpending] at honce
  obtain ⟨hnot, honce⟩ := List.nodup_cons.mp honce
  refine
    { managed := h.managed.imp fun m hm => (hq.managed m).trans hm
      running := hq.stopped.trans h.running
      hung := hq.hung
      secure := fun j hj => hq.secure j (h.secure j hj)
      apart := h.apart
      offered := ?_
      pending := ?_
      once := honce
      joined := fun k hk => by cases hk
      joinedBy := ?_
      inputs := h.inputs
      serving := ?_ }
  · intro k
    have hoffered : (∃ id, r.registry.Offers key id k) ↔ t.listed? = some k := by
      simpa [Caller.Stage.listed?] using h.offered k
    rw [hq.offers k, hoffered]
    rfl
  · intro k
    have hwaits : k ∈ l.source :: q.pending key ↔ some l.source = some k ∨ t.waiting? = some k :=
      hpending ▸ h.pending k
    constructor
    · intro hk
      rcases hwaits.mp (List.mem_cons_of_mem _ hk) with hl | ht
      · exact absurd (Option.some.inj hl ▸ hk) hnot
      · exact Or.inr ht
    · rintro (hl | ht)
      · cases hl
      · rcases List.mem_cons.mp (hwaits.mpr (Or.inr ht)) with rfl | hk
        · exact absurd (Caller.Stage.own?_of_waiting? ht) (h.apart _ rfl)
        · exact hk
  · intro k hk
    cases h.joinedBy k hk
  · have hserving : r.registry.serving key = before + 0 + t.listed?.toList.length := h.serving
    have hone : q.registry.serving key = r.registry.serving key + 1 := hq.serving
    have hlisted : (Caller.Stage.listed l).listed?.toList.length = 1 := rfl
    omega

theorem serve (h : Race key before r n s t) {listed : Option SourceId}
    (hq : r.Serves key listed q) :
    Race key before q n (s.answered listed) (t.answered listed) := by
  cases listed with
  | none =>
    rw [s.answered_none, t.answered_none]
    exact h.unseen hq
  | some k =>
    have hk : k ∈ r.pending key := by simp [hq.pending]
    rcases (h.pending k).mp hk with hs | ht
    · obtain ⟨l, rfl, rfl⟩ := Caller.Stage.exists_of_waiting? hs
      rw [Caller.Stage.answered_of_ne (h.apart _ rfl)]
      simpa [Caller.Stage.answered] using h.serve_waiting hq
    · obtain ⟨l, rfl, rfl⟩ := Caller.Stage.exists_of_waiting? ht
      rw [Caller.Stage.answered_of_ne (h.swap.apart _ rfl)]
      simpa [Caller.Stage.answered] using (h.swap.serve_waiting hq).swap

theorem restage (h : Race key before r n s t) {u : Caller.Stage} {m : Nat}
    (hsecure : ∀ l, u.listener? = some l → r.Secure l)
    (happart : ∀ k, u.own? = some k → t.own? ≠ some k)
    (hlisted : u.listed? = s.listed?) (hwaiting : u.waiting? = s.waiting?)
    (hjoined : ∀ k, u.joined? = some k → t.listed? = some k)
    (hinputs : m + s.inputs = n + u.inputs) : Race key before r m u t where
  managed := h.managed
  running := h.running
  hung := h.hung
  secure := fun l hl => hl.elim (hsecure l) fun ht => h.secure l (Or.inr ht)
  apart := happart
  offered := fun k => by rw [hlisted]; exact h.offered k
  pending := fun k => by rw [hwaiting]; exact h.pending k
  once := h.once
  joined := hjoined
  joinedBy := fun k hk => by rw [hlisted]; exact h.joinedBy k hk
  inputs := by
    have hbefore := h.inputs
    omega
  serving := by rw [hlisted]; exact h.serving

theorem ask {l : Listener} (h : Race key before r n (.opened l) t) (hc : c.request.key = key) :
    Race key before (r.ask fun m => .add m c.request l.source) n (.waiting l) t := by
  obtain ⟨i, hi⟩ := h.managed
  obtain ⟨m, hm, rfl⟩ := Relay.exists_manager_of_managed hi
  have hask : (r.ask fun m => .add m c.request l.source) =
      r.post (.add m.id c.request l.source) := by rw [Relay.ask, hm]
  have hlists : r.lists? key (.add m.id c.request l.source) = some l.source := by
    simp [Relay.lists?, hi, hc]
  have hpending : (r.post (.add m.id c.request l.source)).pending key =
      r.pending key ++ [l.source] := by
    rw [Relay.pending_post h.running, hlists, Option.toList_some]
  have hposted : Relay.Appends (fun _ => True) r (r.post (.add m.id c.request l.source)) :=
    .post h.hung (Or.inr trivial)
  have hwaits : ∀ k, k ∈ r.pending key ↔ t.waiting? = some k := by
    simpa [Caller.Stage.waiting?] using h.pending
  rw [hask]
  refine
    { managed := ⟨m.id, hi⟩
      running := hposted.stopped.trans h.running
      hung := hposted.hung
      secure := fun j hj => (h.secure j hj).of_eq rfl rfl
      apart := h.apart
      offered := h.offered
      pending := ?_
      once := ?_
      joined := fun k hk => by cases hk
      joinedBy := h.joinedBy
      inputs := h.inputs
      serving := h.serving }
  · intro k
    rw [hpending, List.mem_append, hwaits, List.mem_singleton, or_comm, eq_comm]
    simp [Caller.Stage.waiting?]
  · rw [hpending]
    refine List.nodup_append.mpr ⟨h.once, by simp, ?_⟩
    intro k hk j hj hkj
    have hown := Caller.Stage.own?_of_waiting? ((hwaits k).mp hk)
    rw [hkj, List.mem_singleton.mp hj] at hown
    exact h.apart _ rfl hown

theorem step_asking (h : Race key before r n .asking t) (hc : c.request.key = key) :
    (∃ l m joined, t = .listed m ∧ l.source = m.source ∧
      r.tryAttach c.request c.name = .ok (l, joined) ∧
      c.step r .asking = (.joined l, joined)) ∨
    t.listed? = none ∧ c.step r .asking = (.missed, r) := by
  have hoffered : ∀ k, (∃ id, r.registry.Offers key id k) ↔ t.listed? = some k := by
    simpa [Caller.Stage.listed?] using h.offered
  rcases r.foremost_or_no_offer c.request.key with ⟨id, k, hforemost⟩ | hnone
  · obtain ⟨m, rfl, rfl⟩ := Caller.Stage.exists_of_listed? <|
      (hoffered k).mp ⟨id, hc ▸ hforemost.1⟩
    have hopened := (h.secure m (Or.inr rfl)).opened
    obtain ⟨l, joined, hok, hjoins⟩ := Relay.tryAttach_of_open c.name hforemost hopened
    exact Or.inl ⟨l, m, joined, rfl, hjoins.source, hok, by simp only [Caller.step, hok]⟩
  · have hmiss := Relay.tryAttach_of_no_offer c.name hnone
    refine Or.inr ⟨?_, by simp only [Caller.step, hmiss]⟩
    cases hlisted : t.listed? with
    | none => rfl
    | some k =>
      obtain ⟨id, hoffers⟩ := (hoffered k).mpr hlisted
      exact absurd (hc.symm ▸ hoffers) (hnone id k)

theorem exists_manager (h : Race key before r n s t) : ∃ m, r.manager = some m := by
  obtain ⟨i, hi⟩ := h.managed
  obtain ⟨m, hm, _⟩ := Relay.exists_manager_of_managed hi
  exact ⟨m, hm⟩

theorem go (h : Race key before r n s t) (hc : c.request.key = key) :
    Race key before (c.step r s).2 (n + s.starting) (c.step r s).1 t := by
  cases s with
  | asking =>
    rcases h.step_asking hc with ⟨l, m, joined, rfl, hsource, hok, hstep⟩ | ⟨_, hstep⟩
    · rw [hstep]
      have hj := Relay.join?_of_tryAttach hok
      have hissued : l.source < r.nextSource := hsource ▸ (h.secure m (Or.inr rfl)).issued
      have hserves : r.Serves key none joined :=
        .aside (P := fun _ => False) h.hung (.tryAttach hok) nofun fun _ hl => hl.join? hj
      refine (h.unseen hserves).restage ?_ nofun rfl rfl ?_ rfl
      · intro j hl
        cases hl
        exact .new hj hissued
      · intro k hk
        rw [← Option.some.inj hk, hsource]
        rfl
    · rw [hstep]
      exact h.restage nofun nofun rfl rfl nofun rfl
  | missed =>
    exact (h.unseen (.enter h.hung key .started)).restage nofun nofun rfl rfl nofun rfl
  | started =>
    obtain ⟨m, hm⟩ := h.exists_manager
    obtain ⟨l, opened, hj, hstep⟩ := c.step_started hm
    rw [hstep]
    have hsource : l.source = r.nextSource := (Relay.join?_joins hj).source
    have hopen : r.Serves key none (r.openSource m.settings.sizing c.input false).2 :=
      .aside (P := fun _ => False) h.hung (.openSource r _ _ false) nofun
        fun _ hl => hl.openSource _ _ _
    have hserves : (r.openSource m.settings.sizing c.input false).2.Serves key none opened :=
      .aside (P := fun _ => False) hopen.hung (.join? hj) nofun fun _ hl => hl.join? hj
    refine ((h.unseen hopen).unseen hserves).restage ?_ ?_ rfl rfl nofun rfl
    · intro j hl
      cases hl
      exact .new hj (Nat.lt_succ_self _)
    · intro k hk hown
      obtain ⟨j, hlistener, hjk⟩ := Caller.Stage.exists_listener_of_own? hown
      have hissued := (h.secure j (Or.inr hlistener)).issued
      rw [hjk, ← Option.some.inj hk, hsource] at hissued
      exact Nat.lt_irrefl _ hissued
  | opened l => exact h.ask hc
  | waiting l => exact h
  | listed l => exact h
  | joined l => exact h

theorem steps_go (h : Race key before r n s t) (c : Caller) :
    min 4 (s.steps + 1) ≤ (c.step r s).1.steps := by
  cases s with
  | asking =>
    simp only [Caller.step]
    split <;> simp [Caller.Stage.steps]
  | started =>
    obtain ⟨_, hm⟩ := h.exists_manager
    obtain ⟨_, _, _, hstep⟩ := c.step_started hm
    rw [hstep]
    exact Nat.min_le_right _ _
  | _ => simp [Caller.step, Caller.Stage.steps]

end Race

namespace Rivals
variable {caller : Party → Caller} {key : OutputKey} {before : Nat} {x : Rivals} {a : Act}
  {acts : List Act} {p : Party}

/-- Whichever of the two is looked at first. -/
def Racing (key : OutputKey) (before : Nat) (x : Rivals) : Prop :=
  ∀ p, Race key before x.relay x.inputs (x.stage p) (x.stage p.rival)

theorem racing_of (p : Party)
    (h : Race key before x.relay x.inputs (x.stage p) (x.stage p.rival)) :
    x.Racing key before := by
  intro q
  by_cases hq : q = p
  · rw [hq]
    exact h
  · rw [Party.eq_rival_of_ne hq, Party.rival_rival]
    exact h.swap

theorem Racing.act (h : x.Racing key before) (hkey : ∀ p, (caller p).request.key = key)
    (hcalm : x.Calm key a) : (x.act caller a).Racing key before := by
  cases a with
  | go p =>
    apply racing_of p
    simpa only [Rivals.act, if_true, Party.rival_ne, if_false] using (h p).go (hkey p)
  | other v =>
    apply racing_of .first
    simp only [Rivals.act, hkey]
    exact (h .first).serve (.other (h .first).hung hcalm.1 hcalm.2)

theorem Racing.run (h : x.Racing key before) (hkey : ∀ p, (caller p).request.key = key)
    (hcalm : CalmRun caller key x acts) : (x.run caller acts).Racing key before := by
  induction acts generalizing x with
  | nil => exact h
  | cons a rest ih => exact ih (h.act hkey hcalm.1) hcalm.2

/-! ## What becomes of a call -/

/-- A call gets on with every step of its caller, until there are no more to take. -/
theorem Racing.steps_run (h : x.Racing key before) (hkey : ∀ p, (caller p).request.key = key)
    (hcalm : CalmRun caller key x acts) (p : Party) :
    min 4 ((x.stage p).steps + acts.countP (·.isGo p)) ≤ ((x.run caller acts).stage p).steps := by
  induction acts generalizing x with
  | nil => exact Nat.min_le_right _ _
  | cons a rest ih =>
    have hrest : min 4 (((x.act caller a).stage p).steps + rest.countP (·.isGo p)) ≤
        ((x.run caller (a :: rest)).stage p).steps := ih (h.act hkey hcalm.1) hcalm.2
    refine Nat.le_trans ?_ hrest
    rw [List.countP_cons]
    cases a with
    | other v => simp [Rivals.act, Caller.Stage.steps_answered, Act.isGo]
    | go q =>
      by_cases hq : p = q
      · subst hq
        have hstep := (h p).steps_go (caller p)
        simp only [Rivals.act, Act.isGo, if_true, decide_true]
        omega
      · have hgo : (Act.go q).isGo p = false := decide_eq_false fun hqp => hq hqp.symm
        simp only [Rivals.act, hgo, if_neg hq]
        exact Nat.le_refl _

/-- A call that has taken all its steps has returned, or what it waits for is queued. -/
theorem Racing.returns (h : x.Racing key before) (hsteps : 4 ≤ (x.stage p).steps) :
    (∃ l, (x.stage p).returned? = some l) ∨
      ∃ l, x.stage p = .waiting l ∧ l.source ∈ x.relay.pending key := by
  have hpending := (h p).pending
  cases hs : x.stage p with
  | waiting l =>
    rw [hs] at hpending
    exact Or.inr ⟨l, rfl, (hpending _).mpr (Or.inl rfl)⟩
  | listed l => exact Or.inl ⟨l, rfl⟩
  | joined l => exact Or.inl ⟨l, rfl⟩
  | _ =>
    rw [hs] at hsteps
    simp [Caller.Stage.steps] at hsteps

theorem stage_run_of_joined {l : Listener} (h : x.stage p = .joined l) :
    (x.run caller acts).stage p = .joined l := by
  induction acts generalizing x with
  | nil => exact h
  | cons a rest ih =>
    refine ih ?_
    cases a with
    | other v => simp only [act, h, Caller.Stage.answered]
    | go q =>
      simp only [act]
      split
      · rename_i hq
        rw [← hq, h]
        rfl
      · exact h

/-- Whoever comes to have joined a source has looked for it when the other was listed. -/
theorem Racing.late_of_joined (h : x.Racing key before) (hkey : ∀ p, (caller p).request.key = key)
    (hcalm : CalmRun caller key x acts) (hbefore : (x.stage p).joined? = none) {l : Listener}
    (hafter : (x.run caller acts).stage p = .joined l) : Late caller x acts := by
  induction acts generalizing x with
  | nil =>
    rw [show x.stage p = .joined l from hafter] at hbefore
    cases hbefore
  | cons a rest ih =>
    have hnext := h.act hkey hcalm.1
    cases hnow : ((x.act caller a).stage p).joined? with
    | none =>
      obtain ⟨q, front, back, m, hacts, hasking, hlisted⟩ := ih hnext hcalm.2 hnow hafter
      exact ⟨q, a :: front, back, m, by rw [hacts]; rfl, hasking, hlisted⟩
    | some k =>
      -- It has joined just now, so this was its step, and the other one has not moved.
      cases a with
      | other v =>
        simp only [Rivals.act, Caller.Stage.joined?_answered, hbefore] at hnow
        cases hnow
      | go q =>
        have hlisted := (hnext p).joined k hnow
        simp only [Rivals.act] at hnow hlisted
        by_cases hq : p = q
        · subst hq
          rw [if_pos rfl] at hnow
          rw [if_neg (Party.rival_ne p)] at hlisted
          obtain ⟨m, hm, _⟩ := Caller.Stage.exists_of_listed? hlisted
          refine ⟨p, [], rest, m, rfl, ?_, hm⟩
          cases hs : x.stage p with
          | asking => exact hs
          | started =>
            obtain ⟨_, hm⟩ := (h p).exists_manager
            obtain ⟨_, _, _, hstep⟩ := (caller p).step_started hm
            rw [hs, hstep] at hnow
            cases hnow
          | joined j =>
            rw [hs] at hbefore
            cases hbefore
          | _ =>
            rw [hs] at hnow
            cases hnow
        · rw [if_neg hq, hbefore] at hnow
          cases hnow

/-- Whoever looks for a source when the other is listed joins it. -/
theorem Racing.joined_of_late (h : x.Racing key before) (hkey : ∀ p, (caller p).request.key = key)
    (hcalm : CalmRun caller key x acts) (hlate : Late caller x acts) :
    ∃ p l, (x.run caller acts).stage p = .joined l := by
  obtain ⟨p, front, back, m, rfl, hasking, hlisted⟩ := hlate
  have hfront : CalmRun caller key x front := by
    clear hasking hlisted
    induction front generalizing x with
    | nil => trivial
    | cons a front ih => exact ⟨hcalm.1, ih (h.act hkey hcalm.1) hcalm.2⟩
  have hrace := h.run hkey hfront p
  rw [hasking, hlisted] at hrace
  refine ⟨p, ?_⟩
  rcases hrace.step_asking (hkey p) with ⟨l, _, joined, _, _, _, hstep⟩ | ⟨hnone, _⟩
  · refine ⟨l, ?_⟩
    have hrun : x.run caller (front ++ .go p :: back) =
        ((x.run caller front).act caller (.go p)).run caller back := List.foldl_append
    rw [hrun]
    apply stage_run_of_joined
    simp only [Rivals.act, if_true]
    rw [hasking, hstep]
  · cases hnone

theorem racing_start (c : Settings) (catalog : Catalog) (deeds : List Deed)
    (hrunning : (start c catalog deeds).relay.agenda.stopped = false)
    (hnone : (start c catalog deeds).relay.registry.candidate? key = none)
    (hpending : (start c catalog deeds).relay.pending key = []) :
    (start c catalog deeds).Racing key
      ((start c catalog deeds).relay.registry.serving key) := by
  have hmanager := (Relay.kept_foldl (({} : Relay).makeManager c catalog) deeds).2
  obtain ⟨m, hm, _⟩ := Option.map_eq_some_iff.mp hmanager
  have hmanaged : (start c catalog deeds).relay.manager = some m := hm
  have hoffers := Registry.candidate?_eq_none_iff.mp hnone
  intro p
  exact
    { managed := ⟨m.id, by simp [Relay.isManagedBy, hmanaged]⟩
      running := hrunning
      hung := Relay.hung_runDeeds c catalog deeds
      secure := fun l hl => by rcases hl with hl | hl <;> cases hl
      apart := fun k hk => by cases hk
      offered := fun k => iff_of_false (fun h => h.elim fun id hid => hoffers id k hid) (by
        rintro (hk | hk) <;> cases hk)
      pending := fun k => by
        rw [hpending]
        refine iff_of_false List.not_mem_nil ?_
        rintro (hk | hk) <;> cases hk
      once := by
        rw [hpending]
        exact List.nodup_nil
      joined := fun k hk => by cases hk
      joinedBy := fun k hk => by cases hk
      inputs := rfl
      serving := rfl }

/-- When both have returned, they share a source if one has joined that of the other, and have one
each if not. -/
theorem Racing.shared_or_apart (h : x.Racing key before) {l m : Listener}
    (hl : (x.stage .first).returned? = some l) (hm : (x.stage .second).returned? = some m) :
    ((∃ p j, x.stage p = .joined j) → l.source = m.source ∧ x.inputs = 1 ∧
      x.relay.registry.serving key = before + 1) ∧
    ((¬∃ p j, x.stage p = .joined j) → l.source ≠ m.source ∧ x.inputs = 2 ∧
      x.relay.registry.serving key = before + 2) := by
  constructor
  · rintro ⟨p, j, hj⟩
    have hrace := hj ▸ h p
    obtain ⟨i, hi, hsource⟩ := Caller.Stage.exists_of_listed? (hrace.joined _ rfl)
    rw [hi] at hrace
    refine ⟨?_, hrace.inputs, hrace.serving⟩
    cases p with
    | first =>
      rw [hj] at hl
      rw [show x.stage .second = .listed i from hi] at hm
      cases hl
      cases hm
      exact hsource.symm
    | second =>
      rw [show x.stage .first = .listed i from hi] at hl
      rw [hj] at hm
      cases hl
      cases hm
      exact hsource
  · intro hnone
    have hlisted : ∀ {p j}, (x.stage p).returned? = some j → x.stage p = .listed j := by
      intro p j hj
      cases hs : x.stage p with
      | listed i =>
        rw [hs] at hj
        rw [Option.some.inj hj]
      | joined i => exact absurd ⟨p, i, hs⟩ hnone
      | _ =>
        rw [hs] at hj
        cases hj
    have hrace := h .first
    rw [hlisted hl, show x.stage Party.first.rival = .listed m from hlisted hm] at hrace
    exact ⟨fun hsame => hrace.apart _ rfl (congrArg some hsame.symm), hrace.inputs, hrace.serving⟩

/-! ## A call without a rival -/

theorem go_at (caller : Party → Caller) {r : Relay} {s : Caller.Stage}
    (h : x.relay = r ∧ x.stage p = s) :
    (x.act caller (.go p)).relay = ((caller p).step r s).2 ∧
      (x.act caller (.go p)).stage p = ((caller p).step r s).1 := by
  obtain ⟨rfl, rfl⟩ := h
  exact ⟨rfl, if_pos rfl⟩

theorem run_at (caller : Party → Caller) {r : Relay} {s : Caller.Stage}
    (h : x.relay = r ∧ x.stage p = s) :
    (x.act caller (.other .run)).relay = r.make .run ∧
      (x.act caller (.other .run)).stage p =
        s.answered (r.listedIn? (caller p).request.key .run) := by
  obtain ⟨rfl, rfl⟩ := h
  exact ⟨rfl, rfl⟩

theorem listed_at_once {r : Relay} {m : Manager} {l : Listener} (hm : r.manager = some m)
    (hidle : r.agenda.queue = []) (hrunning : r.agenda.stopped = false)
    (h : x.relay = r ∧ x.stage p = .opened l) :
    ((x.act caller (.go p)).act caller (.other .run)).relay =
        r.perform (.add m.id (caller p).request l.source) ∧
      ((x.act caller (.go p)).act caller (.other .run)).stage p = .listed l := by
  let t : Task := .add m.id (caller p).request l.source
  have hask : r.ask (fun i => .add i (caller p).request l.source) = r.post t := by
    rw [Relay.ask, hm]
  have hwaiting := go_at caller h
  rw [Caller.step_opened, hask] at hwaiting
  have hlists : (r.post t).lists? (caller p).request.key t = some l.source := by
    simp [t, Relay.lists?, Relay.isManagedBy, Relay.post, hm]
  have hlisted : (r.post t).listedIn? (caller p).request.key .run = some l.source := by
    rw [Relay.listedIn?, Relay.served?_post hidle hrunning, Option.bind_some, hlists]
  have hrun := run_at caller hwaiting
  rw [Relay.make_run_post hidle hrunning, hlisted] at hrun
  exact ⟨hrun.1, hrun.2.trans (if_pos rfl)⟩

/-- If nobody else does anything, the steps of a call, and the task that it asks for, are what it is
to open a connection. -/
theorem alone_opens_connection (caller : Party → Caller) (p : Party) {r : Relay} {m : Manager}
    (hm : r.manager = some m) (hidle : r.agenda.queue = []) (hrunning : r.agenda.stopped = false) :
    let x := ({ relay := r } : Rivals).run caller (List.replicate 4 (.go p) ++ [.other .run])
    ∃ l, (x.stage p).returned? = some l ∧
      r.openConnection m (caller p).request (caller p).name (.ok (caller p).input) none =
        (.ok l, x.relay) := by
  intro x
  have hfirst := go_at caller (x := { relay := r }) (p := p) ⟨rfl, rfl⟩
  cases hattach : r.tryAttach (caller p).request (caller p).name with
  | ok joining =>
    obtain ⟨l, joined⟩ := joining
    have hstep : (caller p).step r .asking = (.joined l, joined) := by
      simp only [Caller.step, hattach]
    rw [hstep] at hfirst
    have hfour := go_at caller (go_at caller (go_at caller hfirst))
    obtain ⟨hrelay, hstage⟩ : x.relay = joined.make .run ∧ x.stage p = .joined l :=
      run_at caller hfour
    obtain ⟨c, hjoined⟩ := Relay.joined_of_join? (Relay.join?_of_tryAttach hattach)
    have hrest : joined.make .run = joined := by
      simp [Relay.make, Relay.runNext?, Agenda.next?, hjoined.agenda, hidle]
    refine ⟨l, by rw [hstage]; rfl, ?_⟩
    rw [hrelay, hrest, Relay.openConnection, hattach]
  | error e =>
    have hstep : (caller p).step r .asking = (.missed, r) := by
      simp only [Caller.step, hattach]
    rw [hstep] at hfirst
    have hsecond := go_at caller hfirst
    obtain ⟨l, opened, hj, hopened⟩ := (caller p).step_started (r := r.enter .started) hm
    have hthird := go_at caller hsecond
    rw [Caller.step_missed, hopened] at hthird
    obtain ⟨c, hjoined⟩ := Relay.joined_of_join? hj
    have hagenda : opened.agenda = r.agenda := hjoined.agenda
    rw [← hagenda] at hidle hrunning
    obtain ⟨hrelay, hstage⟩ : x.relay = _ ∧ x.stage p = .listed l :=
      listed_at_once (hjoined.manager.trans hm) hidle hrunning hthird
    refine ⟨l, by rw [hstage]; rfl, ?_⟩
    have hsource : l.source = (r.enter .started).nextSource := (Relay.join?_joins hj).source
    have hnumber : ((r.enter .started).openSource m.settings.sizing (caller p).input false).1 =
        l.source := hsource.symm
    rw [← hsource] at hj
    simp only [Relay.openConnection, Relay.openSource?, hattach, hnumber, hj, Relay.addConnection,
      Relay.send?, hrunning, Relay.drain_of_idle hidle, hrelay, Bool.false_eq_true, if_false]

/-- Two calls for the same stream, when nothing is offered under their key: whatever else happens
meanwhile, as long as nobody else opens a connection under the key and nothing is disturbed, each
call returns as soon as the thread has listed what is queued, with a cursor at a source that has the
start of its stream. If one of the two has looked for a source only when the connection of the other
was listed, one input has been started, both have cursors at the same source, and there is one new
connection. If not, two inputs have been started, the sources differ, and there are two. A call that
has an idle thread to itself is what it is to open a connection. -/
theorem calls_share_if_one_is_late (c : Settings) (catalog : Catalog) (deeds : List Deed)
    (caller : Party → Caller) (key : OutputKey) (acts : List Act)
    (hkey : ∀ p, (caller p).request.key = key)
    (hrunning : (start c catalog deeds).relay.agenda.stopped = false)
    (hnone : (start c catalog deeds).relay.registry.candidate? key = none)
    (hpending : (start c catalog deeds).relay.pending key = [])
    (hcalm : CalmRun caller key (start c catalog deeds) acts) :
    let x := (start c catalog deeds).run caller acts
    let before := (start c catalog deeds).relay.registry.serving key
    (∀ p, 4 ≤ acts.countP (·.isGo p) → (∃ l, (x.stage p).returned? = some l) ∨
      ∃ l, x.stage p = .waiting l ∧ l.source ∈ x.relay.pending key) ∧
    (∀ p l, (x.stage p).returned? = some l →
      x.relay.isOpen l.source = true ∧ x.relay.isSeated l.source l.reader.cursor = true) ∧
    (∀ l m, (x.stage .first).returned? = some l → (x.stage .second).returned? = some m →
      (Late caller (start c catalog deeds) acts → l.source = m.source ∧ x.inputs = 1 ∧
        x.relay.registry.serving key = before + 1) ∧
      (¬Late caller (start c catalog deeds) acts → l.source ≠ m.source ∧ x.inputs = 2 ∧
        x.relay.registry.serving key = before + 2)) ∧
    ∀ p m, (start c catalog deeds).relay.manager = some m →
      (start c catalog deeds).relay.agenda.queue = [] →
      let alone := (start c catalog deeds).run caller (List.replicate 4 (.go p) ++ [.other .run])
      ∃ l, (alone.stage p).returned? = some l ∧
        (start c catalog deeds).relay.openConnection m (caller p).request (caller p).name
          (.ok (caller p).input) none = (.ok l, alone.relay) := by
  intro x before
  have hstart : (start c catalog deeds).Racing key before :=
    racing_start c catalog deeds hrunning hnone hpending
  have hx : x.Racing key before := hstart.run hkey hcalm
  refine ⟨?_, ?_, ?_, fun p _ hm hidle => alone_opens_connection caller p hm hidle hrunning⟩
  · intro p hcount
    refine hx.returns (Nat.le_trans ?_ (hstart.steps_run hkey hcalm p))
    exact Nat.le_min.mpr ⟨Nat.le_refl _, Nat.le_trans hcount (Nat.le_add_left _ _)⟩
  · intro p l hl
    have hsecure := (hx p).secure l (Or.inl (Caller.Stage.listener?_of_returned? hl))
    exact ⟨hsecure.opened, hsecure.seated⟩
  · intro l m hl hm
    obtain ⟨hshared, hapart⟩ := hx.shared_or_apart hl hm
    have hlate : Late caller (start c catalog deeds) acts ↔ ∃ p j, x.stage p = .joined j :=
      ⟨hstart.joined_of_late hkey hcalm, fun ⟨p, j, hj⟩ => hstart.late_of_joined hkey hcalm rfl hj⟩
    rw [hlate]
    exact ⟨hshared, hapart⟩

def twins (p : Party) : Caller where
  name := match p with
    | .first => "a"
    | .second => "b"
  request := ⟨{}, "m", "e", ""⟩
  input := { items := [.bytes ⟨#[1, 2, 3, 4]⟩ 0] }

theorem key_twins (p : Party) : (twins p).request.key = (twins .first).request.key := rfl

def oneAfterTheOther : List Act :=
  List.replicate 4 (.go .first) ++ [.other .run, .go .second]

def sideBySide : List Act :=
  (List.replicate 4 [.go .first, .go .second]).flatten ++ [.other .run, .other .run]

theorem shared_one_after_the_other :
    let x := (start {} {} []).run twins oneAfterTheOther
    ∃ l m, (x.stage .first).returned? = some l ∧ (x.stage .second).returned? = some m ∧
      l.source = m.source ∧ x.inputs = 1 ∧
      x.relay.registry.serving (twins .first).request.key = 1 := by
  have hshared := calls_share_if_one_is_late {} {} [] twins (twins .first).request.key
    oneAfterTheOther key_twins (by decide +kernel) (by decide +kernel) (by decide +kernel)
    (by decide +kernel)
  have hbefore : (start {} {} []).relay.registry.serving (twins .first).request.key = 0 := by
    decide +kernel
  have hfirst : ((((start {} {} []).run twins oneAfterTheOther).stage .first).returned?).isSome =
      true := by decide +kernel
  have hsecond : ((((start {} {} []).run twins oneAfterTheOther).stage .second).returned?).isSome =
      true := by decide +kernel
  have hlate : Late twins (start {} {} []) oneAfterTheOther := by
    let front : List Act := List.replicate 4 (.go .first) ++ [.other .run]
    have hasking : ((start {} {} []).run twins front).stage .second = .asking :=
      Caller.Stage.eq_asking_of_steps (by decide +kernel)
    have hlisted : ((((start {} {} []).run twins front).stage Party.second.rival).listed?).isSome =
        true := by decide +kernel
    obtain ⟨k, hk⟩ := Option.isSome_iff_exists.mp hlisted
    obtain ⟨l, hl, _⟩ := Caller.Stage.exists_of_listed? hk
    exact ⟨.second, front, [], l, rfl, hasking, hl⟩
  obtain ⟨l, hl⟩ := Option.isSome_iff_exists.mp hfirst
  obtain ⟨m, hm⟩ := Option.isSome_iff_exists.mp hsecond
  obtain ⟨hsource, hinputs, hserving⟩ := (hshared.2.2.1 l m hl hm).1 hlate
  rw [hbefore] at hserving
  exact ⟨l, m, hl, hm, hsource, hinputs, hserving⟩

/-- Two calls for the same stream do not always share a source. -/
theorem not_shared_side_by_side :
    ¬∀ (c : Settings) (catalog : Catalog) (deeds : List Deed) (caller : Party → Caller)
      (key : OutputKey) (acts : List Act),
      (∀ p, (caller p).request.key = key) →
        (start c catalog deeds).relay.agenda.stopped = false →
        (start c catalog deeds).relay.registry.candidate? key = none →
        (start c catalog deeds).relay.pending key = [] →
        CalmRun caller key (start c catalog deeds) acts →
        ∀ l m, (((start c catalog deeds).run caller acts).stage .first).returned? = some l →
          (((start c catalog deeds).run caller acts).stage .second).returned? = some m →
          ((start c catalog deeds).run caller acts).inputs = 1 ∧ l.source = m.source ∧
            ((start c catalog deeds).run caller acts).relay.registry.serving key =
              (start c catalog deeds).relay.registry.serving key + 1 := by
  intro h
  have hfirst : ((((start {} {} []).run twins sideBySide).stage .first).returned?).isSome =
      true := by decide +kernel
  have hsecond : ((((start {} {} []).run twins sideBySide).stage .second).returned?).isSome =
      true := by decide +kernel
  obtain ⟨l, hl⟩ := Option.isSome_iff_exists.mp hfirst
  obtain ⟨m, hm⟩ := Option.isSome_iff_exists.mp hsecond
  obtain ⟨hone, -, -⟩ := h {} {} [] twins (twins .first).request.key sideBySide key_twins
    (by decide +kernel) (by decide +kernel) (by decide +kernel) (by decide +kernel) l m hl hm
  have htwo : ((start {} {} []).run twins sideBySide).inputs = 2 := by decide +kernel
  rw [htwo] at hone
  cases hone

end Rivals
end MediaRelay
