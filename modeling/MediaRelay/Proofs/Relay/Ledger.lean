import MediaRelay.Proofs.Relay.Changes
import MediaRelay.Proofs.Relay.Errands

/-! # The ledger

What is always so while calls are under way. A source is alive as long as somebody has a handle on
it. For what the registry retains of a source that nobody listens to there is a task on the way, or
about to be posted, that makes the registry give it up; and so there is one for each connection
whose source has gone. The ledger is kept by whatever is done at one stroke.
-/
namespace MediaRelay

/-- What a thread that has this errand before it is going to do afterwards. -/
def Errand.needs : Errand → Option Errand
  | .notify k => some (.letGo k)
  | .post (.left k) _ => some (.letGo k)
  | .serve t => (Relay.adds? t).map .answer
  | .onClose k _ => some (.answer k)
  | .onDetach k _ => some (.answer k)
  | _ => none

/-- The task that is posted, or hung on a source, or set off later. -/
def Errand.brings? : Errand → Option Task
  | .post _ t => some t
  | .onClose _ t => some t
  | .onDetach _ t => some t
  | .timer _ t => some t
  | _ => none

namespace Site

/-- A task is in the queue, or is about to be posted or done. -/
def OnWay (x : Site) (es : List Errand) (cause : Cause) (t : Task) : Prop :=
  .post cause t ∈ es ∨ .serve t ∈ es ∨ t ∈ x.relay.agenda.queue

/-- A source has this closing task, dead or alive. -/
def Closes (x : Site) (k : SourceId) (t : Task) : Prop :=
  ∃ c, (x.relay.channels.get? k = some c ∨ x.fading.get? k = some c) ∧ t ∈ c.onClose

structure Ledger (m : ManagerId) (x : Site) (es : List Errand) : Prop where
  seated : x.relay.Seated
  running : x.relay.agenda.stopped = false
  managed : x.relay.manager.map Manager.id = some m
  issued : ∀ id k, x.relay.registry.retained.get? id = some k → id ≤ x.relay.registry.lastId
  alive : ∀ k, (x.relay.channels.get? k).isSome ↔
    x.relay.Heard k ∨ x.relay.Retained k ∨ .letGo k ∈ es
  faded : ∀ k, (x.fading.get? k).isSome →
    k < x.relay.nextSource ∧ x.relay.channels.get? k = none ∧ .bury k ∈ es
  harmless : ∀ k c, x.relay.channels.get? k = some c ∨ x.fading.get? k = some c →
    ∀ t ∈ c.onDetach ++ c.onClose, Relay.adds? t = none
  mild : ∀ e ∈ es, ∀ t, e.brings? = some t → Relay.adds? t = none
  timed : ∀ t ∈ x.relay.agenda.timers, Relay.adds? t.task = none
  asked : ∀ t ∈ x.relay.agenda.queue, ∀ k, Relay.adds? t = some k → x.relay.Heard k
  answered : ∀ k, .answer k ∈ es → x.relay.Heard k
  left : ∀ id k, x.relay.registry.retained.get? id = some k →
    x.relay.Heard k ∨ .notify k ∈ es ∨ x.OnWay es (.left k) (.cursorLeft m id)
  hung : ∀ id k, x.relay.registry.retained.get? id = some k →
    .onDetach k (.cursorLeft m id) ∈ es ∨
      ∃ c, x.relay.channels.get? k = some c ∧ .cursorLeft m id ∈ c.onDetach
  listed : ∀ id n, x.relay.registry.connections.get? id = some n →
    .onClose n.source (.sourceClosed m id) ∈ es ∨ x.Closes n.source (.sourceClosed m id) ∨
      x.OnWay es (.gone n.source) (.sourceClosed m id)

variable {m : ManagerId} {x y : Site} {es fs : List Errand} {e : Errand}

theorem OnWay.mono {cause : Cause} {t : Task} (h : x.OnWay es cause t)
    (hes : ∀ e ∈ es, e ∈ fs) (hqueue : ∀ u ∈ x.relay.agenda.queue, u ∈ y.relay.agenda.queue) :
    y.OnWay fs cause t :=
  h.imp (hes _) (.imp (hes _) (hqueue t))

namespace Ledger

/-! ## Errands that come and go -/

/-- What an errand that comes must not bring with it. -/
structure Comes (x : Site) (e : Errand) : Prop where
  held : ∀ k, e = .letGo k → (x.relay.channels.get? k).isSome := by intro _ h; cases h
  answered : ∀ k, e = .answer k → x.relay.Heard k := by intro _ h; cases h
  mild : ∀ t, e.brings? = some t → Relay.adds? t = none := by intro _ h; cases h

theorem add (fs : List Errand) (h : x.Ledger m es) (hfs : ∀ e ∈ fs, Comes x e) :
    x.Ledger m (fs ++ es) where
  seated := h.seated
  running := h.running
  managed := h.managed
  issued := h.issued
  alive := by
    intro k
    rw [h.alive, List.mem_append]
    constructor
    · exact Or.imp_right (Or.imp_right Or.inr)
    · rintro (hheard | hretained | hnew | hold)
      · exact Or.inl hheard
      · exact Or.inr (Or.inl hretained)
      · exact (h.alive k).mp ((hfs _ hnew).held k rfl)
      · exact Or.inr (Or.inr hold)
  faded := fun k hk => (h.faded k hk).imp_right (.imp_right (List.mem_append_right fs))
  harmless := h.harmless
  mild := by
    intro e he
    rcases List.mem_append.mp he with hnew | hold
    · exact (hfs e hnew).mild
    · exact h.mild e hold
  timed := h.timed
  asked := h.asked
  answered := by
    intro k hk
    rcases List.mem_append.mp hk with hnew | hold
    · exact (hfs _ hnew).answered k rfl
    · exact h.answered k hold
  left := by
    intro id k hk
    exact (h.left id k hk).imp_right
      (.imp (List.mem_append_right fs) fun hway =>
        hway.mono (fun _ => List.mem_append_right fs) fun _ hu => hu)
  hung := fun id k hk => (h.hung id k hk).imp_left (List.mem_append_right fs)
  listed := by
    intro id n hn
    exact (h.listed id n hn).imp (List.mem_append_right fs)
      (.imp_right fun hway => hway.mono (fun _ => List.mem_append_right fs) fun _ hu => hu)

/-- Nothing depends on an errand any more. -/
structure Spare (m : ManagerId) (x : Site) (e : Errand) (es : List Errand) : Prop where
  held : ∀ k, e = .letGo k → (x.relay.channels.get? k).isSome →
    x.relay.Heard k ∨ x.relay.Retained k ∨ .letGo k ∈ es := by intro _ h; cases h
  buried : ∀ k, e = .bury k → x.fading.get? k = none := by intro _ h; cases h
  notified : ∀ k, e = .notify k → ∀ id, x.relay.registry.retained.get? id = some k →
    x.relay.Heard k ∨ x.OnWay es (.left k) (.cursorLeft m id) := by intro _ h; cases h
  left : ∀ k id, e = .post (.left k) (.cursorLeft m id) →
    .cursorLeft m id ∈ x.relay.agenda.queue := by intro _ _ h; cases h
  released : ∀ id, e = .serve (.cursorLeft m id) →
    x.relay.registry.retained.get? id = none := by intro _ h; cases h
  hung : ∀ k id, e = .onDetach k (.cursorLeft m id) →
    ∃ c, x.relay.channels.get? k = some c ∧ .cursorLeft m id ∈ c.onDetach := by intro _ _ h; cases h
  closes : ∀ k id, e = .onClose k (.sourceClosed m id) →
    x.Closes k (.sourceClosed m id) := by intro _ _ h; cases h
  gone : ∀ k id, e = .post (.gone k) (.sourceClosed m id) →
    .sourceClosed m id ∈ x.relay.agenda.queue := by intro _ _ h; cases h
  delisted : ∀ id, e = .serve (.sourceClosed m id) →
    x.relay.registry.connections.get? id = none := by intro _ h; cases h

theorem drop (h : x.Ledger m (e :: es)) (he : Spare m x e es) : x.Ledger m es where
  seated := h.seated
  running := h.running
  managed := h.managed
  issued := h.issued
  alive := by
    intro k
    constructor
    · intro hk
      rcases (h.alive k).mp hk with hheard | hretained | hgo
      · exact Or.inl hheard
      · exact Or.inr (Or.inl hretained)
      · rcases List.mem_cons.mp hgo with hgo | hgo
        · exact he.held k hgo.symm hk
        · exact Or.inr (Or.inr hgo)
    · exact fun hk => (h.alive k).mpr (hk.imp_right (.imp_right (List.mem_cons_of_mem e)))
  faded := by
    intro k hk
    obtain ⟨hlt, hnone, hbury⟩ := h.faded k hk
    refine ⟨hlt, hnone, (List.mem_cons.mp hbury).resolve_left fun hbury => ?_⟩
    rw [he.buried k hbury.symm] at hk
    cases hk
  harmless := h.harmless
  mild := fun d hd => h.mild d (List.mem_cons_of_mem e hd)
  timed := h.timed
  asked := h.asked
  answered := fun k hk => h.answered k (List.mem_cons_of_mem e hk)
  left := by
    intro id k hk
    rcases h.left id k hk with hheard | hnotify | hpost | hserve | hqueue
    · exact Or.inl hheard
    · rcases List.mem_cons.mp hnotify with hnotify | hnotify
      · exact (he.notified k hnotify.symm id hk).imp_right Or.inr
      · exact Or.inr (Or.inl hnotify)
    · rcases List.mem_cons.mp hpost with hpost | hpost
      · exact Or.inr (Or.inr (Or.inr (Or.inr (he.left k id hpost.symm))))
      · exact Or.inr (Or.inr (Or.inl hpost))
    · rcases List.mem_cons.mp hserve with hserve | hserve
      · rw [he.released id hserve.symm] at hk
        cases hk
      · exact Or.inr (Or.inr (Or.inr (Or.inl hserve)))
    · exact Or.inr (Or.inr (Or.inr (Or.inr hqueue)))
  hung := by
    intro id k hk
    rcases h.hung id k hk with hpending | hhung
    · rcases List.mem_cons.mp hpending with hpending | hpending
      · exact Or.inr (he.hung k id hpending.symm)
      · exact Or.inl hpending
    · exact Or.inr hhung
  listed := by
    intro id n hn
    rcases h.listed id n hn with hpending | hcloses | hpost | hserve | hqueue
    · rcases List.mem_cons.mp hpending with hpending | hpending
      · exact Or.inr (Or.inl (he.closes n.source id hpending.symm))
      · exact Or.inl hpending
    · exact Or.inr (Or.inl hcloses)
    · rcases List.mem_cons.mp hpost with hpost | hpost
      · exact Or.inr (Or.inr (Or.inr (Or.inr (he.gone n.source id hpost.symm))))
      · exact Or.inr (Or.inr (Or.inl hpost))
    · rcases List.mem_cons.mp hserve with hserve | hserve
      · rw [he.delisted id hserve.symm] at hn
        cases hn
      · exact Or.inr (Or.inr (Or.inr (Or.inl hserve)))
    · exact Or.inr (Or.inr (Or.inr (Or.inr hqueue)))

/-! ## Nothing is taken away -/

/-- The registry knows the same of all sources. -/
structure SameBooks (r s : Relay) : Prop where
  manager : s.manager.map Manager.id = r.manager.map Manager.id
  lastId : s.registry.lastId = r.registry.lastId
  connections : s.registry.connections = r.registry.connections
  retained : s.registry.retained = r.registry.retained

theorem sameBooks_of_manager {r s : Relay} (h : s.manager = r.manager) : SameBooks r s := by
  have hregistry : s.registry = r.registry := by simp only [Relay.registry, h]
  constructor <;> simp [h, hregistry]

theorem SameBooks.retained_iff {r s : Relay} (h : SameBooks r s) (k : SourceId) :
    s.Retained k ↔ r.Retained k := by
  simp only [Relay.Retained, h.retained]

/-- The sources that are fading have the same tasks. -/
def SameTasks (f g : Roster SourceId Channel) : Prop :=
  ∀ k, (g.get? k).map (fun c => (c.onDetach, c.onClose)) =
    (f.get? k).map fun c => (c.onDetach, c.onClose)

theorem sameTasks_refl (f : Roster SourceId Channel) : SameTasks f f := fun _ => rfl

theorem sameTasks_modify (f : Roster SourceId Channel) (k : SourceId) {g : Channel → Channel}
    (hdetach : ∀ c, (g c).onDetach = c.onDetach) (hclose : ∀ c, (g c).onClose = c.onClose) :
    SameTasks f (f.modify k g) := by
  intro j
  rw [Roster.get?_modify]
  split
  · simp [Function.comp_def, hdetach, hclose]
  · rfl

theorem SameTasks.channel {f g : Roster SourceId Channel} (h : SameTasks f g) {k : SourceId}
    {d : Channel} (hd : g.get? k = some d) :
    ∃ c, f.get? k = some c ∧ d.onDetach = c.onDetach ∧ d.onClose = c.onClose := by
  have hk := h k
  rw [hd, Option.map_some] at hk
  obtain ⟨c, hc, he⟩ := Option.map_eq_some_iff.mp hk.symm
  obtain ⟨hdetach, hclose⟩ := Prod.mk.inj he
  exact ⟨c, hc, hdetach.symm, hclose.symm⟩

theorem SameTasks.symm {f g : Roster SourceId Channel} (h : SameTasks f g) : SameTasks g f :=
  fun k => (h k).symm

/-- What happens beside the books: listeners may come, and tasks. -/
structure Grows (x y : Site) : Prop where
  seated : y.relay.Seated
  heard : ∀ k, x.relay.Heard k → y.relay.Heard k
  alive : ∀ k, (y.relay.channels.get? k).isSome ↔ (x.relay.channels.get? k).isSome
  nextSource : y.relay.nextSource = x.relay.nextSource
  tasks : Relay.TasksGrow x.relay y.relay
  fading : SameTasks x.fading y.fading
  books : SameBooks x.relay y.relay
  running : y.relay.agenda.stopped = x.relay.agenda.stopped
  queue : ∀ t ∈ x.relay.agenda.queue, t ∈ y.relay.agenda.queue
  asked : ∀ t ∈ y.relay.agenda.queue, t ∈ x.relay.agenda.queue ∨
    ∀ k, Relay.adds? t = some k → x.relay.Heard k
  timed : ∀ t ∈ y.relay.agenda.timers, t ∈ x.relay.agenda.timers ∨ Relay.adds? t.task = none

theorem Grows.closes (h : Grows x y) {k : SourceId} {t : Task} (hk : x.Closes k t) :
    y.Closes k t := by
  obtain ⟨c, hc | hc, ht⟩ := hk
  · obtain ⟨d, hd⟩ := Option.isSome_iff_exists.mp ((h.alive k).mpr (by simp [hc]))
    obtain ⟨_, hclose, _⟩ := h.tasks k c d hc hd
    exact ⟨d, Or.inl hd, hclose ht⟩
  · obtain ⟨d, hd, _, hclose⟩ := h.fading.symm.channel hc
    exact ⟨d, Or.inr hd, hclose ▸ ht⟩

theorem grows (h : x.Ledger m es) (hg : Grows x y) : y.Ledger m es where
  seated := hg.seated
  running := hg.running.trans h.running
  managed := hg.books.manager.trans h.managed
  issued := by
    rw [hg.books.retained, hg.books.lastId]
    exact h.issued
  alive := by
    intro k
    rw [hg.books.retained_iff]
    constructor
    · exact fun hk => ((h.alive k).mp ((hg.alive k).mp hk)).imp_left (hg.heard k)
    · rintro (hheard | hothers)
      · obtain ⟨c, hc⟩ := Relay.exists_channel hg.seated hheard
        simp [hc]
      · exact (hg.alive k).mpr ((h.alive k).mpr (Or.inr hothers))
  faded := by
    intro k hk
    obtain ⟨d, hd⟩ := Option.isSome_iff_exists.mp hk
    obtain ⟨c, hc, _⟩ := hg.fading.channel hd
    have halive := hg.alive k
    rw [hg.nextSource, ← Option.not_isSome_iff_eq_none, halive, Option.not_isSome_iff_eq_none]
    exact h.faded k (by simp [hc])
  harmless := by
    rintro k d (hd | hd) t ht
    · obtain ⟨c, hc⟩ := Option.isSome_iff_exists.mp ((hg.alive k).mp (by simp [hd]))
      rcases (hg.tasks k c d hc hd).2.2 t ht with hold | hnew
      · exact h.harmless k c (Or.inl hc) t hold
      · exact hnew
    · obtain ⟨c, hc, hdetach, hclose⟩ := hg.fading.channel hd
      rw [hdetach, hclose] at ht
      exact h.harmless k c (Or.inr hc) t ht
  mild := h.mild
  timed := fun t ht => (hg.timed t ht).elim (h.timed t) id
  asked := by
    intro t ht k hk
    apply hg.heard
    exact (hg.asked t ht).elim (fun hold => h.asked t hold k hk) fun hnew => hnew k hk
  answered := fun k hk => hg.heard k (h.answered k hk)
  left := by
    rw [hg.books.retained]
    intro id k hk
    exact (h.left id k hk).imp (hg.heard k)
      (.imp_right fun hway => hway.mono (fun _ he => he) hg.queue)
  hung := by
    rw [hg.books.retained]
    intro id k hk
    refine (h.hung id k hk).imp_right ?_
    rintro ⟨c, hc, hdetach⟩
    obtain ⟨d, hd⟩ := Option.isSome_iff_exists.mp ((hg.alive k).mpr (by simp [hc]))
    obtain ⟨hsub, _⟩ := hg.tasks k c d hc hd
    exact ⟨d, hd, hsub hdetach⟩
  listed := by
    rw [hg.books.connections]
    intro id n hn
    exact (h.listed id n hn).imp_right
      (.imp hg.closes fun hway => hway.mono (fun _ he => he) hg.queue)

theorem SameBooks.trans {r s t : Relay} (h : SameBooks r s) (h' : SameBooks s t) :
    SameBooks r t where
  manager := h'.manager.trans h.manager
  lastId := h'.lastId.trans h.lastId
  connections := h'.connections.trans h.connections
  retained := h'.retained.trans h.retained

/-- Sources and listeners are as they were. -/
structure Aside (r s : Relay) : Prop where
  channels : s.channels = r.channels
  listeners : s.listeners = r.listeners
  nextSource : s.nextSource = r.nextSource
  books : SameBooks r s

namespace Aside
variable {r s t : Relay}

theorem trans (h : Aside r s) (h' : Aside s t) : Aside r t where
  channels := h'.channels.trans h.channels
  listeners := h'.listeners.trans h.listeners
  nextSource := h'.nextSource.trans h.nextSource
  books := h.books.trans h'.books

theorem of_manager (hchannels : s.channels = r.channels) (hlisteners : s.listeners = r.listeners)
    (hnext : s.nextSource = r.nextSource) (hmanager : s.manager = r.manager) : Aside r s :=
  ⟨hchannels, hlisteners, hnext, sameBooks_of_manager hmanager⟩

/-- What is done with the subscriptions is none of the ledger's business. -/
theorem updateRegistry (r : Relay) {f : Registry → Registry}
    (hlast : ∀ g, (f g).lastId = g.lastId) (hconnections : ∀ g, (f g).connections = g.connections)
    (hretained : ∀ g, (f g).retained = g.retained) : Aside r (r.updateRegistry f) := by
  refine ⟨rfl, rfl, rfl, ?_⟩
  have hmanager := r.manager_updateRegistry f
  rcases r.registry_updateRegistry_cases f with he | he <;> constructor <;>
    simp [hmanager, he, hlast, hconnections, hretained]

theorem seats (h : Aside r s) : Relay.SameSeats r s :=
  ⟨h.nextSource, fun _ => by rw [h.channels], fun _ => by rw [h.listeners]⟩

theorem grows (h : Aside r s) (hr : r.Seated) (hrunning : s.agenda.stopped = r.agenda.stopped)
    (hqueue : ∀ t ∈ r.agenda.queue, t ∈ s.agenda.queue)
    (hasked : ∀ t ∈ s.agenda.queue, t ∈ r.agenda.queue ∨ ∀ k, Relay.adds? t = some k → r.Heard k)
    (htimed : ∀ t ∈ s.agenda.timers, t ∈ r.agenda.timers ∨ Relay.adds? t.task = none)
    (fading : Roster SourceId Channel) (log log' : List Record) :
    Grows ⟨r, fading, log⟩ ⟨s, fading, log'⟩ where
  seated := h.seats.seated hr
  heard := fun _ => h.seats.heard
  alive := h.seats.isSome_iff
  nextSource := h.nextSource
  tasks := by
    apply Relay.tasksGrow_of_eq
    intro k c d hc hd
    dsimp only at hc hd
    rw [h.channels, hc] at hd
    cases hd
    exact ⟨rfl, rfl⟩
  fading := sameTasks_refl fading
  books := h.books
  running := hrunning
  queue := hqueue
  asked := hasked
  timed := htimed

theorem grows_of_agenda (h : Aside r s) (hr : r.Seated) (hagenda : s.agenda = r.agenda)
    (fading : Roster SourceId Channel) (log : List Record) :
    Grows ⟨r, fading, log⟩ ⟨s, fading, log⟩ := by
  apply h.grows hr <;> rw [hagenda]
  · exact fun _ ht => ht
  · exact fun _ ht => Or.inl ht
  · exact fun _ ht => Or.inl ht

theorem grows_post (hr : r.Seated) (hrunning : r.agenda.stopped = false) {t : Task}
    (ht : ∀ k, Relay.adds? t = some k → r.Heard k) (fading : Roster SourceId Channel)
    (log log' : List Record) : Grows ⟨r, fading, log⟩ ⟨r.post t, fading, log'⟩ := by
  have hagenda : (r.post t).agenda = { r.agenda with queue := r.agenda.queue ++ [t] } :=
    Agenda.post_of_running hrunning t
  have haside : Aside r (r.post t) := of_manager rfl rfl rfl rfl
  apply haside.grows hr <;> rw [hagenda]
  · exact fun u hu => List.mem_append_left [t] hu
  · intro u hu
    rcases List.mem_append.mp hu with hold | hnew
    · exact Or.inl hold
    · rw [List.mem_singleton.mp hnew]
      exact Or.inr ht
  · exact fun _ hu => Or.inl hu

theorem grows_timer (hr : r.Seated) (hrunning : r.agenda.stopped = false) (delay : Nat) {t : Task}
    (ht : Relay.adds? t = none) (fading : Roster SourceId Channel) (log : List Record) :
    Grows ⟨r, fading, log⟩ ⟨{ r with agenda := r.agenda.timer delay t }, fading, log⟩ := by
  have hagenda : r.agenda.timer delay t =
      { r.agenda with timers := r.agenda.timers ++ [⟨r.agenda.clock + delay, t⟩] } := by
    simp [Agenda.timer, hrunning]
  have haside : Aside r { r with agenda := r.agenda.timer delay t } := of_manager rfl rfl rfl rfl
  apply haside.grows hr <;> dsimp only <;> rw [hagenda]
  · exact fun _ hu => hu
  · exact fun _ hu => Or.inl hu
  · intro u hu
    rcases List.mem_append.mp hu with hold | hnew
    · exact Or.inl hold
    · rw [List.mem_singleton.mp hnew]
      exact Or.inr ht

theorem cancelOnThread (r : Relay) (tag : String) : Aside r (r.cancelOnThread tag) ∧
    (r.cancelOnThread tag).agenda = r.agenda := by
  unfold Relay.cancelOnThread
  cases r.subscriptions.get? tag with
  | none => exact ⟨of_manager rfl rfl rfl rfl, rfl⟩
  | some s =>
    have hrenounce : Aside r { r with subscriptions := r.subscriptions.erase tag } :=
      of_manager rfl rfl rfl rfl
    dsimp only
    split
    · have hunsubscribe := updateRegistry { r with subscriptions := r.subscriptions.erase tag }
        (f := (·.unsubscribe s.subscriber)) (fun _ => rfl) (fun _ => rfl) fun _ => rfl
      exact ⟨hrenounce.trans hunsubscribe, rfl⟩
    · exact ⟨hrenounce, rfl⟩

theorem telling (r : Relay) (n : Nat) (s : Subscriber) :
    Aside r (r.telling n s).1 ∧ (r.telling n s).1.agenda = r.agenda := by
  have hall : ∀ (tags : List String) (r : Relay), Aside r (tags.foldl Relay.cancelOnThread r) ∧
      (tags.foldl Relay.cancelOnThread r).agenda = r.agenda := by
    intro tags
    induction tags with
    | nil => exact fun r => ⟨of_manager rfl rfl rfl rfl, rfl⟩
    | cons tag rest ih =>
      intro r
      obtain ⟨hfirst, hagenda⟩ := cancelOnThread r tag
      obtain ⟨hrest, hlast⟩ := ih (r.cancelOnThread tag)
      exact ⟨hfirst.trans hrest, hlast.trans hagenda⟩
  have htold : Aside r (r.enter (.count s.tag n r.registry.count)) := of_manager rfl rfl rfl rfl
  obtain ⟨hcancels, hagenda⟩ := hall s.cancels (r.enter (.count s.tag n r.registry.count))
  exact ⟨htold.trans hcancels, hagenda⟩

end Aside

end Ledger
end Site
end MediaRelay
