import CallFold.Proofs.Analyses
import Mathlib

/-!
# Methods that are analysed at the same time

What a task does depends only on its own view of the session (`Task.effects`), and no other task can
change that view: each method has its own state, and the store holds what the loader has, whichever
method made it load a class. So in whatever order the workers of a pass move (`Executes`), the
effects of each of them are those of its task alone (`Executes.own_trace`).

Two orders therefore differ in the order of the log entries and in nothing else
(`reordered_of_executes`). In particular a pass over methods that are analysed at the same time
comes to the same as one in which they are analysed in turn (`runPass_reordered`).
-/

namespace CallFold

/-- Lists that agree on the entries of each kind hold the same entries. -/
theorem perm_of_filter_eq {α κ : Type} [DecidableEq α] [DecidableEq κ] (kind : α → κ)
    {l l' : List α} (h : ∀ k, l.filter (fun a => kind a = k) = l'.filter fun a => kind a = k) :
    l.Perm l' := by
  rw [List.perm_iff_count]
  intro a
  have hcount : ∀ l : List α, l.count a = (l.filter fun b => kind b = kind a).count a := fun l =>
    (List.count_filter (by simp)).symm
  rw [hcount l, hcount l', h]

/-! ## What a task does -/

/-- What a task can learn about its method. -/
structure View where
  failure : Option Error
  state : Option MethodState
  body : Except Error MethodBody

/-- What a task can learn after it did something itself. -/
def View.after (v : View) : Effect → View
  | .keep state => { v with state := some state }
  | .setAside e => { v with failure := some e }
  | _ => v

namespace Task

/-- What a task does if nobody else changes its view. -/
def effects : Task → View → List Effect
  | done _, _ => []
  | askFailure next, v => (next v.failure).effects v
  | askState next, v => (next v.state).effects v
  | load next, v => .load :: (next v.body).effects v
  | act effect next, v => effect :: next.effects (v.after effect)

/-- What a task comes to if nobody else changes its view. -/
def outcome : Task → View → MethodPass
  | done outcome, _ => outcome
  | askFailure next, v => (next v.failure).outcome v
  | askState next, v => (next v.state).outcome v
  | load next, v => (next v.body).outcome v
  | act effect next, v => next.outcome (v.after effect)

end Task

namespace Session

variable {s s' t : Session} {metadata : Metadata} {key other : MethodKey} {effect : Effect}

/-- What the task of a method can learn. -/
def view (s : Session) (key : MethodKey) : View where
  failure := s.failures.get? key
  state := s.states.get? key
  body := (s.store.method s.load key).2

theorem load_perform (s : Session) (key : MethodKey) (effect : Effect) :
    (s.perform key effect).load = s.load := by
  cases effect <;> rfl

theorem faithful_perform (hs : s.store.Faithful s.load) (key : MethodKey) (effect : Effect) :
    (s.perform key effect).store.Faithful (s.perform key effect).load := by
  cases effect with
  | load =>
    have hgrows : s.store.Grows s.load key.declaringType (s.store.method s.load key).1 := by
      rw [CodeStore.method_fst]
      exact CodeStore.grows_classCode s.store s.load key.declaringType
    exact hs.grows hgrows
  | _ => exact hs

/-- Loading a class changes no body. -/
theorem body_perform (hs : s.store.Faithful s.load) (key other : MethodKey) (effect : Effect) :
    ((s.perform other effect).store.method (s.perform other effect).load key).2 =
      (s.store.method s.load key).2 := by
  have hfaithful := faithful_perform hs other effect
  rw [load_perform] at hfaithful ⊢
  exact hfaithful.method_snd hs key

theorem view_perform_self (hs : s.store.Faithful s.load) (key : MethodKey) (effect : Effect) :
    (s.perform key effect).view key = (s.view key).after effect := by
  have hbody := body_perform hs key key effect
  unfold view
  rw [hbody]
  cases effect with
  | keep state => simp only [perform, View.after, Table.get?_insert_self]
  | setAside e => simp only [perform, View.after, Table.get?_insert_self]
  | _ => rfl

/-- No task changes the view of another one. -/
theorem view_perform_of_ne (hs : s.store.Faithful s.load) (hne : key ≠ other) (effect : Effect) :
    (s.perform other effect).view key = s.view key := by
  have hbody := body_perform hs key other effect
  unfold view
  rw [hbody]
  cases effect with
  | keep state => simp only [perform, Table.get?_insert_of_ne _ _ hne]
  | setAside e => simp only [perform, Table.get?_insert_of_ne _ _ hne]
  | _ => rfl

end Session

namespace Worker

variable {w : Worker} {s : Session} {key : MethodKey}

/-- What the next step of a worker does. -/
def emits (w : Worker) : List (MethodKey × Effect) :=
  w.task.effect?.toList.map (w.key, ·)

theorem faithful_perform (w : Worker) (hs : s.store.Faithful s.load) :
    (w.perform s).store.Faithful (w.perform s).load := by
  unfold perform
  split
  · exact Session.faithful_perform hs _ _
  · exact hs

theorem view_perform_of_ne (hs : s.store.Faithful s.load) (hne : key ≠ w.key) :
    (w.perform s).view key = s.view key := by
  unfold perform
  split
  · exact Session.view_perform_of_ne hs hne _
  · rfl

/-- The next step of a worker does the first thing that its task does. -/
theorem effects_next (w : Worker) (hs : s.store.Faithful s.load) :
    w.task.effects (s.view w.key) =
      w.task.effect?.toList ++ (w.next s).task.effects ((w.perform s).view w.key) := by
  obtain ⟨key, task⟩ := w
  cases task with
  | load next =>
    have hview : (s.perform key .load).view key = s.view key := Session.view_perform_self hs key _
    show .load :: (next (s.view key).body).effects (s.view key) =
      .load :: (next (s.view key).body).effects ((s.perform key .load).view key)
    rw [hview]
  | act effect next =>
    show effect :: next.effects ((s.view key).after effect) =
      effect :: next.effects ((s.perform key effect).view key)
    rw [Session.view_perform_self hs]
  | _ => rfl

theorem outcome_next (w : Worker) (hs : s.store.Faithful s.load) :
    w.task.outcome (s.view w.key) = (w.next s).task.outcome ((w.perform s).view w.key) := by
  obtain ⟨key, task⟩ := w
  cases task with
  | load next =>
    have hview : (s.perform key .load).view key = s.view key := Session.view_perform_self hs key _
    show (next (s.view key).body).outcome (s.view key) =
      (next (s.view key).body).outcome ((s.perform key .load).view key)
    rw [hview]
  | act effect next =>
    show next.outcome ((s.view key).after effect) = next.outcome ((s.perform key effect).view key)
    rw [Session.view_perform_self hs]
  | _ => rfl

end Worker

/-! ## Traces -/

/-- The effects in a trace that are those of a method. -/
def own (key : MethodKey) (trace : List (MethodKey × Effect)) : List Effect :=
  (trace.filter fun e => e.1 = key).map Prod.snd

section

variable {key : MethodKey} {trace trace' : List (MethodKey × Effect)}

theorem own_append (key : MethodKey) (trace trace' : List (MethodKey × Effect)) :
    own key (trace ++ trace') = own key trace ++ own key trace' := by
  simp only [own, List.filter_append, List.map_append]

theorem own_cons_self (effect : Effect) (trace : List (MethodKey × Effect)) :
    own key ((key, effect) :: trace) = effect :: own key trace := by
  simp [own]

theorem own_cons_of_ne {e : MethodKey × Effect} (h : e.1 ≠ key)
    (trace : List (MethodKey × Effect)) : own key (e :: trace) = own key trace := by
  simp [own, h]

theorem own_emits (w : Worker) (key : MethodKey) :
    own key w.emits = if w.key = key then w.task.effect?.toList else [] := by
  unfold own Worker.emits
  cases w.task.effect? with
  | none => simp
  | some effect => by_cases h : w.key = key <;> simp [h]

theorem mem_own_iff {effect : Effect} : effect ∈ own key trace ↔ (key, effect) ∈ trace := by
  simp [own]

theorem own_eq_nil (h : ∀ e ∈ trace, e.1 ≠ key) : own key trace = [] := by
  rw [own, List.filter_eq_nil_iff.mpr fun e he => by simpa using h e he]
  rfl

theorem filter_eq_map_own (key : MethodKey) (trace : List (MethodKey × Effect)) :
    (trace.filter fun e => e.1 = key) = (own key trace).map (key, ·) := by
  induction trace with
  | nil => rfl
  | cons e trace ih =>
    obtain ⟨k, effect⟩ := e
    by_cases h : k = key
    · subst h
      rw [List.filter_cons_of_pos (by simp), own_cons_self, ih, List.map_cons]
    · rw [List.filter_cons_of_neg (by simpa using h), own_cons_of_ne h, ih]

/-- Traces in which each method does the same hold the same effects. -/
theorem perm_of_own_eq (h : ∀ key, own key trace = own key trace') : trace.Perm trace' := by
  classical
  refine perm_of_filter_eq Prod.fst fun key => ?_
  rw [filter_eq_map_own, filter_eq_map_own, h]

end

/-! ### Effects on a session -/

namespace Effect

/-- What an effect adds to the registrations. -/
def registrations : Effect → List Registration
  | register registration => [registration]
  | _ => []

/-- What an effect of a method adds to the records. -/
def records (key : MethodKey) : Effect → List ResolutionRecord
  | record call => [Session.recordOf key call]
  | _ => []

/-- What an effect of a method adds to the tags. -/
def tags (key : MethodKey) : Effect → List CallSiteTag
  | tag call => [Session.tagOf key call]
  | _ => []

end Effect

namespace Session

variable {s s' t u v : Session} {metadata : Metadata} {key : MethodKey}
  {trace trace' : List (MethodKey × Effect)}

/-- The session after the effects of a trace. -/
def performAll (s : Session) (trace : List (MethodKey × Effect)) : Session :=
  trace.foldl (fun s e => s.perform e.1 e.2) s

theorem performAll_cons (s : Session) (e : MethodKey × Effect)
    (trace : List (MethodKey × Effect)) :
    s.performAll (e :: trace) = (s.perform e.1 e.2).performAll trace := rfl

theorem performAll_append (s : Session) (trace trace' : List (MethodKey × Effect)) :
    s.performAll (trace ++ trace') = (s.performAll trace).performAll trace' :=
  List.foldl_append

theorem performAll_emits (s : Session) (w : Worker) : s.performAll w.emits = w.perform s := by
  unfold Worker.emits Worker.perform
  cases w.task.effect? <;> rfl

theorem sameSettings_perform (s : Session) (key : MethodKey) (effect : Effect) :
    SameSettings s (s.perform key effect) := by
  cases effect <;> exact ⟨rfl, rfl, rfl, rfl⟩

theorem sameSettings_performAll (s : Session) (trace : List (MethodKey × Effect)) :
    SameSettings s (s.performAll trace) := by
  induction trace generalizing s with
  | nil => exact ⟨rfl, rfl, rfl, rfl⟩
  | cons e trace ih => exact (sameSettings_perform s e.1 e.2).trans (ih _)

theorem passes_performAll (s : Session) (trace : List (MethodKey × Effect)) :
    (s.performAll trace).passes = s.passes := by
  induction trace generalizing s with
  | nil => rfl
  | cons e trace ih =>
    rw [performAll_cons, ih]
    cases e.2 <;> rfl

/-- What becomes of a method depends on its own effects only. -/
theorem view_performAll (hs : s.store.Faithful s.load) (trace : List (MethodKey × Effect))
    (key : MethodKey) :
    (s.performAll trace).view key = (own key trace).foldl View.after (s.view key) := by
  induction trace generalizing s with
  | nil => rfl
  | cons e trace ih =>
    rw [performAll_cons, ih (faithful_perform hs e.1 e.2)]
    obtain ⟨k, effect⟩ := e
    by_cases h : k = key
    · subst h
      rw [own_cons_self, List.foldl_cons, view_perform_self hs]
    · rw [own_cons_of_ne h, view_perform_of_ne hs (Ne.symm h)]

theorem registrations_performAll (s : Session) (trace : List (MethodKey × Effect)) :
    (s.performAll trace).registrations =
      s.registrations ++ trace.flatMap fun e => e.2.registrations := by
  induction trace generalizing s with
  | nil => simp [performAll]
  | cons e trace ih =>
    rw [performAll_cons, ih, List.flatMap_cons, ← List.append_assoc]
    congr 1
    cases e.2 <;> simp [perform, Effect.registrations]

theorem resolutions_performAll (s : Session) (trace : List (MethodKey × Effect)) :
    (s.performAll trace).resolutions =
      s.resolutions ++ trace.flatMap fun e => e.2.records e.1 := by
  induction trace generalizing s with
  | nil => simp [performAll]
  | cons e trace ih =>
    rw [performAll_cons, ih, List.flatMap_cons, ← List.append_assoc]
    congr 1
    cases e.2 <;> simp [perform, Effect.records]

theorem tags_performAll (s : Session) (trace : List (MethodKey × Effect)) :
    (s.performAll trace).tags = s.tags ++ trace.flatMap fun e => e.2.tags e.1 := by
  induction trace generalizing s with
  | nil => simp [performAll]
  | cons e trace ih =>
    rw [performAll_cons, ih, List.flatMap_cons, ← List.append_assoc]
    congr 1
    cases e.2 <;> simp [perform, Effect.tags]

theorem filter_records (key : MethodKey) (trace : List (MethodKey × Effect)) :
    (trace.flatMap fun e => e.2.records e.1).filter (fun r => r.method = key) =
      (own key trace).flatMap (Effect.records key) := by
  induction trace with
  | nil => rfl
  | cons e trace ih =>
    obtain ⟨k, effect⟩ := e
    rw [List.flatMap_cons, List.filter_append, ih]
    by_cases h : k = key
    · subst h
      rw [own_cons_self, List.flatMap_cons]
      congr 1
      cases effect <;> simp [Effect.records, recordOf]
    · rw [own_cons_of_ne h]
      cases effect <;> simp [Effect.records, recordOf, h]

theorem filter_tags (key : MethodKey) (trace : List (MethodKey × Effect)) :
    (trace.flatMap fun e => e.2.tags e.1).filter (fun tag => tag.method = key) =
      (own key trace).flatMap (Effect.tags key) := by
  induction trace with
  | nil => rfl
  | cons e trace ih =>
    obtain ⟨k, effect⟩ := e
    rw [List.flatMap_cons, List.filter_append, ih]
    by_cases h : k = key
    · subst h
      rw [own_cons_self, List.flatMap_cons]
      congr 1
      cases effect <;> simp [Effect.tags, tagOf]
    · rw [own_cons_of_ne h]
      cases effect <;> simp [Effect.tags, tagOf, h]

theorem get?_loaded_perform_iff (s : Session) (key : MethodKey) (effect : Effect) {type : String}
    {c : ClassCode} :
    (s.perform key effect).store.loaded.get? type = some c ↔ s.store.loaded.get? type = some c ∨
      effect = .load ∧ key.declaringType = type ∧ s.store.loaded.get? type = none ∧
        s.load type = .ok c := by
  cases effect with
  | load =>
    show (s.store.method s.load key).1.loaded.get? type = some c ↔ _
    rw [CodeStore.method_fst, CodeStore.classCode]
    split
    · next c' hget =>
      refine ⟨Or.inl, fun h => h.resolve_right ?_⟩
      rintro ⟨-, rfl, hnone, -⟩
      rw [hget] at hnone
      cases hnone
    · next hnone =>
      split
      · next c' hload =>
        rw [Table.get?_insert]
        split
        · next heq =>
          subst heq
          simp [hnone, hload]
        · next hne => simp [Ne.symm hne]
      · next e hload =>
        refine ⟨Or.inl, fun h => h.resolve_right ?_⟩
        rintro ⟨-, rfl, -, hload'⟩
        rw [hload] at hload'
        cases hload'
  | _ => simp [perform]

/-- The classes that are loaded in the end are those that some method loads. -/
theorem get?_loaded_performAll_iff (hs : s.store.Faithful s.load)
    (trace : List (MethodKey × Effect)) {type : String} {c : ClassCode} :
    (s.performAll trace).store.loaded.get? type = some c ↔ s.store.loaded.get? type = some c ∨
      s.load type = .ok c ∧ ∃ key, key.declaringType = type ∧ (key, .load) ∈ trace := by
  induction trace generalizing s with
  | nil => simp [performAll]
  | cons e trace ih =>
    rw [performAll_cons, ih (faithful_perform hs e.1 e.2), get?_loaded_perform_iff, load_perform]
    obtain ⟨k, effect⟩ := e
    simp only [List.mem_cons, Prod.mk.injEq]
    constructor
    · rintro ((hold | ⟨rfl, rfl, -, hload⟩) | ⟨hload, key, rfl, hmem⟩)
      · exact Or.inl hold
      · exact Or.inr ⟨hload, k, rfl, Or.inl ⟨rfl, rfl⟩⟩
      · exact Or.inr ⟨hload, key, rfl, Or.inr hmem⟩
    · rintro (hold | ⟨hload, key, rfl, ⟨rfl, rfl⟩ | hmem⟩)
      · exact Or.inl (Or.inl hold)
      · rcases hget : s.store.loaded.get? key.declaringType with _ | c'
        · exact Or.inl (Or.inr ⟨rfl, rfl, rfl, hload⟩)
        · have hc := hs _ _ hget
          rw [hload] at hc
          exact Or.inl (Or.inl (by rw [Except.ok.inj hc]))
      · exact Or.inr ⟨hload, key, rfl, hmem⟩

/-! ## Sessions that differ in order only -/

/-- Logs with a common beginning, after which they hold the same entries. -/
def ReorderedLog {α : Type} (base log log' : List α) : Prop :=
  ∃ new new', log = base ++ new ∧ log' = base ++ new' ∧ new'.Perm new

theorem ReorderedLog.perm {α : Type} {base log log' : List α} (h : ReorderedLog base log log') :
    log'.Perm log := by
  obtain ⟨new, new', rfl, rfl, hperm⟩ := h
  exact hperm.append_left base

/--
Two sessions that come from a third one, with the same results for every method and the same loaded
classes, whose logs differ in the order of the entries that were added.
-/
structure Reordered (base s t : Session) : Prop where
  settings : SameSettings s t
  methods : ∀ key, SameFor key s t
  classes : ∀ type, t.store.loaded.get? type = s.store.loaded.get? type
  passes : t.passes = s.passes
  registrations : ReorderedLog base.registrations s.registrations t.registrations
  records : ReorderedLog base.resolutions s.resolutions t.resolutions
  tags : ReorderedLog base.tags s.tags t.tags

/--
Sessions with the same settings, the same results for every method and the same loaded classes,
whose logs hold the same entries.
-/
structure Rearranged (s t : Session) : Prop where
  settings : SameSettings s t
  methods : ∀ key, SameFor key s t
  classes : ∀ type, t.store.loaded.get? type = s.store.loaded.get? type
  registrations : t.registrations.Perm s.registrations
  records : t.resolutions.Perm s.resolutions
  tags : t.tags.Perm s.tags

theorem Reordered.rearranged {base : Session} (h : Reordered base s t) : Rearranged s t :=
  ⟨h.settings, h.methods, h.classes, h.registrations.perm, h.records.perm, h.tags.perm⟩

theorem ReorderedLog.refl {α : Type} {base log : List α} (h : base <+: log) :
    ReorderedLog base log log := by
  obtain ⟨new, rfl⟩ := h
  exact ⟨new, new, rfl, rfl, .refl new⟩

theorem Rearranged.refl (s : Session) : Rearranged s s :=
  ⟨⟨rfl, rfl, rfl, rfl⟩, fun key => .refl key s, fun _ => rfl, .refl _, .refl _, .refl _⟩

theorem Rearranged.symm (h : Rearranged s t) : Rearranged t s :=
  ⟨h.settings.symm, fun key => (h.methods key).symm, fun type => (h.classes type).symm,
    h.registrations.symm, h.records.symm, h.tags.symm⟩

theorem Rearranged.trans (h : Rearranged s t) (h' : Rearranged t u) : Rearranged s u :=
  ⟨h.settings.trans h'.settings, fun key => (h.methods key).trans (h'.methods key),
    fun type => (h'.classes type).trans (h.classes type), h'.registrations.trans h.registrations,
    h'.records.trans h.records, h'.tags.trans h.tags⟩

/-- Whether each method does the same decides about everything but the order of the logs. -/
theorem reordered_performAll (hs : s.store.Faithful s.load)
    (h : ∀ key, own key trace = own key trace') :
    Reordered s (s.performAll trace) (s.performAll trace') := by
  have hperm : trace'.Perm trace := perm_of_own_eq fun key => (h key).symm
  have hview : ∀ key, (s.performAll trace').view key = (s.performAll trace).view key := by
    intro key
    rw [view_performAll hs, view_performAll hs, h]
  refine ⟨?_, fun key => ⟨congrArg View.state (hview key), congrArg View.failure (hview key), ?_,
    ?_⟩, fun type => ?_, ?_, ?_, ?_, ?_⟩
  · have hsettings := sameSettings_performAll s trace
    have hsettings' := sameSettings_performAll s trace'
    exact ⟨hsettings'.config.trans hsettings.config.symm, hsettings'.load.trans hsettings.load.symm,
      hsettings'.catalog.trans hsettings.catalog.symm,
      hsettings'.safeCalls.trans hsettings.safeCalls.symm⟩
  · rw [resolutions_performAll, resolutions_performAll, List.filter_append, List.filter_append,
      filter_records, filter_records, h]
  · rw [tags_performAll, tags_performAll, List.filter_append, List.filter_append, filter_tags,
      filter_tags, h]
  · refine Option.ext fun c => ?_
    rw [get?_loaded_performAll_iff hs, get?_loaded_performAll_iff hs]
    simp only [hperm.mem_iff]
  · rw [passes_performAll, passes_performAll]
  · exact ⟨_, _, registrations_performAll s trace, registrations_performAll s trace',
      hperm.flatMap_right _⟩
  · exact ⟨_, _, resolutions_performAll s trace, resolutions_performAll s trace',
      hperm.flatMap_right _⟩
  · exact ⟨_, _, tags_performAll s trace, tags_performAll s trace', hperm.flatMap_right _⟩

end Session

/-! ## Executions -/

/-- Workers move one at a time, in any order. The trace holds what they do. -/
inductive Executes :
    List Worker → Session → List (MethodKey × Effect) → List Worker → Session → Prop where
  | refl (workers : List Worker) (s : Session) : Executes workers s [] workers s
  | move {workers workers' : List Worker} {s s' : Session} {trace : List (MethodKey × Effect)}
      {position : Nat} {w : Worker} (hw : workers[position]? = some w)
      (hrest : Executes (workers.set position (w.next s)) (w.perform s) trace workers' s') :
      Executes workers s (w.emits ++ trace) workers' s'

/-- Workers that have come to their ends. -/
def finished (results : List (MethodKey × MethodPass)) : List Worker :=
  results.map fun r => ⟨r.1, .done r.2⟩

variable {workers workers' : List Worker} {s s' t t' : Session}
  {trace trace' : List (MethodKey × Effect)} {results results' : List (MethodKey × MethodPass)}

namespace Executes

theorem trans {workers'' : List Worker} {s'' : Session} (h : Executes workers s trace workers' s')
    (h' : Executes workers' s' trace' workers'' s'') :
    Executes workers s (trace ++ trace') workers'' s'' := by
  induction h with
  | refl => exact h'
  | move hw _ ih =>
    rw [List.append_assoc]
    exact .move hw (ih h')

theorem map_key_set {position : Nat} {w : Worker} (hw : workers[position]? = some w)
    (s : Session) : (workers.set position (w.next s)).map Worker.key = workers.map Worker.key := by
  refine List.ext_getElem? fun i => ?_
  rw [List.getElem?_map, List.getElem?_map, List.getElem?_set]
  split
  · next heq =>
    subst heq
    have hlt := (List.getElem?_eq_some_iff.mp hw).1
    rw [if_pos hlt, hw, Option.map_some, Option.map_some]
    rfl
  · rfl

theorem map_key (h : Executes workers s trace workers' s') :
    workers'.map Worker.key = workers.map Worker.key := by
  induction h with
  | refl => rfl
  | move hw _ ih => rw [ih, map_key_set hw]

theorem eq_performAll (h : Executes workers s trace workers' s') : s' = s.performAll trace := by
  induction h with
  | refl => rfl
  | move _ _ ih => rw [ih, Session.performAll_append, Session.performAll_emits]

theorem mem_keys (h : Executes workers s trace workers' s') :
    ∀ e ∈ trace, e.1 ∈ workers.map Worker.key := by
  induction h with
  | refl => simp
  | @move workers _ _ _ _ _ w hw hrest ih =>
    intro e he
    rcases List.mem_append.mp he with hemit | hmem
    · obtain ⟨effect, -, rfl⟩ := List.mem_map.mp hemit
      exact List.mem_map_of_mem (List.mem_of_getElem? hw)
    · rw [← map_key_set hw _]
      exact ih e hmem

/-- What a worker has done and what its task still does is what its task does from the start. -/
theorem project (h : Executes workers s trace workers' s') (hs : s.store.Faithful s.load)
    (hkeys : (workers.map Worker.key).Nodup) {i : Nat} {w w' : Worker} (hw : workers[i]? = some w)
    (hw' : workers'[i]? = some w') :
    w'.key = w.key ∧
      w.task.effects (s.view w.key) = own w.key trace ++ w'.task.effects (s'.view w.key) ∧
      w.task.outcome (s.view w.key) = w'.task.outcome (s'.view w.key) := by
  induction h generalizing w with
  | refl =>
    obtain rfl : w = w' := Option.some.inj (hw.symm.trans hw')
    exact ⟨rfl, rfl, rfl⟩
  | @move workers workers' s s' trace position x hx _ ih =>
    -- the keys stay as they are, so the rest of the execution falls under the hypothesis
    have hkeys' : ((workers.set position (x.next s)).map Worker.key).Nodup := by
      rw [map_key_set hx]
      exact hkeys
    have hlt := (List.getElem?_eq_some_iff.mp hx).1
    have hnext := fun {w : Worker} => ih (w := w) (x.faithful_perform hs) hkeys'
    rw [own_append, own_emits, List.append_assoc]
    by_cases hi : i = position
    · subst hi
      obtain rfl : w = x := Option.some.inj (hw.symm.trans hx)
      obtain ⟨hkey, heffects, houtcome⟩ := hnext (w := w.next s)
        (by rw [List.getElem?_set_self hlt]) hw'
      rw [if_pos rfl, w.effects_next hs, w.outcome_next hs]
      exact ⟨hkey, congrArg _ heffects, houtcome⟩
    · -- the worker that moved is another one, for another method
      have hne : w.key ≠ x.key := by
        intro heq
        refine hi ((List.getElem?_inj (l := workers.map Worker.key) ?_ hkeys).mp ?_)
        · rw [List.length_map]
          exact (List.getElem?_eq_some_iff.mp hw).1
        · rw [List.getElem?_map, List.getElem?_map, hw, hx, Option.map_some, Option.map_some, heq]
      obtain ⟨hkey, heffects, houtcome⟩ := hnext (w := w)
        (by rw [List.getElem?_set_ne (Ne.symm hi), hw]) hw'
      rw [Worker.view_perform_of_ne hs hne] at heffects houtcome
      rw [if_neg (Ne.symm hne)]
      exact ⟨hkey, heffects, houtcome⟩

/-- If all workers come to their ends, each did what its task does, and came to what it comes to. -/
theorem own_trace (h : Executes workers s trace (finished results) s')
    (hs : s.store.Faithful s.load) (hkeys : (workers.map Worker.key).Nodup) {w : Worker}
    (hw : w ∈ workers) : own w.key trace = w.task.effects (s.view w.key) := by
  obtain ⟨i, hi⟩ := List.getElem?_of_mem hw
  have hlength : (finished results).length = workers.length := by
    simpa using congrArg List.length h.map_key
  have hlt : i < (finished results).length := hlength ▸ (List.getElem?_eq_some_iff.mp hi).1
  obtain ⟨-, heffects, -⟩ := h.project hs hkeys hi (List.getElem?_eq_getElem hlt)
  rw [heffects]
  simp [finished, Task.effects]

theorem results_eq (h : Executes workers s trace (finished results) s')
    (hs : s.store.Faithful s.load) (hkeys : (workers.map Worker.key).Nodup) :
    results = workers.map fun w => (w.key, w.task.outcome (s.view w.key)) := by
  have hlength : (finished results).length = workers.length := by
    simpa using congrArg List.length h.map_key
  rw [finished, List.length_map] at hlength
  refine List.ext_getElem (by rw [hlength, List.length_map]) fun i hi hi' => ?_
  have hw : i < workers.length := hlength ▸ hi
  have hend : (finished results)[i]? = some ⟨results[i].1, .done results[i].2⟩ := by
    simp [finished, List.getElem?_eq_getElem hi]
  obtain ⟨hkey, -, houtcome⟩ := h.project hs hkeys (List.getElem?_eq_getElem hw) hend
  rw [List.getElem_map, houtcome, ← hkey]
  rfl

end Executes

/-- In whatever order some workers come to their ends, only the order of the logs depends on it. -/
theorem reordered_of_executes (h : Executes workers s trace (finished results) t)
    (h' : Executes workers s trace' (finished results') t') (hs : s.store.Faithful s.load)
    (hkeys : (workers.map Worker.key).Nodup) :
    results' = results ∧ Session.Reordered s t t' := by
  refine ⟨(h'.results_eq hs hkeys).trans (h.results_eq hs hkeys).symm, ?_⟩
  -- each method does in both traces what its task does alone, or nothing at all
  rw [h.eq_performAll, h'.eq_performAll]
  refine Session.reordered_performAll hs fun key => ?_
  by_cases hkey : key ∈ workers.map Worker.key
  · obtain ⟨w, hw, rfl⟩ := List.mem_map.mp hkey
    rw [h.own_trace hs hkeys hw, h'.own_trace hs hkeys hw]
  · have hno : ∀ e : MethodKey × Effect, e.1 ∈ workers.map Worker.key → e.1 ≠ key :=
      fun e he heq => hkey (heq ▸ he)
    rw [own_eq_nil fun e he => hno e (h.mem_keys e he),
      own_eq_nil fun e he => hno e (h'.mem_keys e he)]

/-! ### Schedules -/

theorem executes_interleave (schedule : List Nat) (workers : List Worker) (s : Session) :
    ∃ trace, Executes workers s trace (Worker.interleave schedule workers s).1
      (Worker.interleave schedule workers s).2 := by
  induction schedule generalizing workers s with
  | nil => exact ⟨[], .refl workers s⟩
  | cons position schedule ih =>
    unfold Worker.interleave
    split
    · exact ih workers s
    · next w hw =>
      obtain ⟨trace, h⟩ := ih (workers.set position (w.next s)) (w.perform s)
      exact ⟨_, .move hw h⟩

/-- A worker that comes to its end after its next step comes to its end. -/
theorem executes_step {position : Nat} {key : MethodKey} {task : Task} {outcome : MethodPass}
    (hw : workers[position]? = some ⟨key, task⟩)
    (h : ∃ trace, Executes (workers.set position ⟨key, task.next key s⟩)
      (Worker.perform ⟨key, task⟩ s) trace
      ((workers.set position ⟨key, task.next key s⟩).set position ⟨key, .done outcome⟩) s') :
    ∃ trace, Executes workers s trace (workers.set position ⟨key, .done outcome⟩) s' := by
  obtain ⟨trace, h⟩ := h
  rw [List.set_set] at h
  exact ⟨_, .move hw h⟩

/-- To settle a task is to let its worker move until it has come to its end. -/
theorem executes_settle {position : Nat} {key : MethodKey} {task : Task}
    (hw : workers[position]? = some ⟨key, task⟩) (s : Session) :
    ∃ trace, Executes workers s trace (workers.set position ⟨key, .done (task.settle key s).1⟩)
      (task.settle key s).2 := by
  have hlt := (List.getElem?_eq_some_iff.mp hw).1
  induction task generalizing workers s with
  | done outcome =>
    have hsame : workers.set position ⟨key, .done outcome⟩ = workers := by
      refine List.ext_getElem? fun i => ?_
      rw [List.getElem?_set]
      split
      · next heq => rw [← heq, hw]
      · rfl
    refine ⟨[], ?_⟩
    show Executes workers s [] (workers.set position ⟨key, .done outcome⟩) s
    rw [hsame]
    exact .refl workers s
  | askFailure next ih =>
    exact executes_step hw (ih _ (List.getElem?_set_self hlt) s (by simpa using hlt))
  | askState next ih =>
    exact executes_step hw (ih _ (List.getElem?_set_self hlt) s (by simpa using hlt))
  | load next ih =>
    exact executes_step hw (ih _ (List.getElem?_set_self hlt) _ (by simpa using hlt))
  | act effect next ih =>
    exact executes_step hw (ih (List.getElem?_set_self hlt) _ (by simpa using hlt))

/-- What workers come to who come to their ends in turn. -/
theorem executes_settleAll (workers first : List Worker) (summary : PassSummary) (s : Session) :
    ∃ trace results, Executes (first ++ workers) s trace (first ++ finished results)
        (Worker.settleAll workers summary s).2 ∧
      (Worker.settleAll workers summary s).1 =
        results.foldl (fun summary r => summary.add r.1 r.2) summary := by
  induction workers generalizing first summary s with
  | nil => exact ⟨[], [], .refl _ s, rfl⟩
  | cons w workers ih =>
    obtain ⟨key, task⟩ := w
    have hw : (first ++ ⟨key, task⟩ :: workers)[first.length]? = some ⟨key, task⟩ := by simp
    obtain ⟨trace, hsettle⟩ := executes_settle hw s
    obtain ⟨trace', results, hrest, hsummary⟩ :=
      ih (first ++ [⟨key, .done (task.settle key s).1⟩]) (summary.add key (task.settle key s).1)
        (task.settle key s).2
    refine ⟨trace ++ trace', (key, (task.settle key s).1) :: results, hsettle.trans ?_, hsummary⟩
    rw [List.append_assoc, List.append_assoc] at hrest
    rw [List.set_append_right _ _ (Nat.le_refl _), Nat.sub_self]
    exact hrest

/-! ## Passes -/

namespace Session

variable {metadata : Metadata} {key : MethodKey} {methods keys : List MethodKey}
  {summary : PassSummary}

theorem mem_newKeys_iff {seen : List MethodKey} :
    key ∈ newKeys seen keys ↔ key ∈ keys ∧ key ∉ seen := by
  induction keys generalizing seen with
  | nil => simp [newKeys]
  | cons k keys ih =>
    unfold newKeys
    split
    · next hseen =>
      rw [ih, List.mem_cons]
      refine ⟨fun h => ⟨Or.inr h.1, h.2⟩, fun h => ⟨h.1.resolve_left ?_, h.2⟩⟩
      rintro rfl
      exact h.2 hseen
    · next hseen =>
      rw [List.mem_cons, ih, List.mem_cons, List.mem_cons, not_or]
      by_cases hk : key = k
      · subst hk
        simp [hseen]
      · simp [hk]

theorem nodup_newKeys (seen keys : List MethodKey) : (newKeys seen keys).Nodup := by
  induction keys generalizing seen with
  | nil => exact List.nodup_nil
  | cons k keys ih =>
    unfold newKeys
    split
    · exact ih seen
    · refine List.nodup_cons.mpr ⟨fun hmem => ?_, ih _⟩
      exact (mem_newKeys_iff.mp hmem).2 List.mem_cons_self

theorem mem_distinctKeys_iff : key ∈ distinctKeys methods ↔ key ∈ methods := by
  simp [distinctKeys, mem_newKeys_iff]

theorem nodup_distinctKeys (methods : List MethodKey) : (distinctKeys methods).Nodup :=
  nodup_newKeys [] methods

/-- Analyses some methods in turn. -/
def analyzeAll (metadata : Metadata) :
    List MethodKey → PassSummary → Session → PassSummary × Session
  | [], summary, s => (summary, s)
  | key :: rest, summary, s =>
    let (outcome, s') := s.analyzeMethod metadata key
    analyzeAll metadata rest (summary.add key outcome) s'

theorem analyzeAll_cons (metadata : Metadata) (key : MethodKey) (keys : List MethodKey)
    (summary : PassSummary) (s : Session) :
    analyzeAll metadata (key :: keys) summary s =
      analyzeAll metadata keys (summary.add key (s.analyzeMethod metadata key).1)
        (s.analyzeMethod metadata key).2 := rfl

theorem analyzeAll_append (metadata : Metadata) (before after : List MethodKey)
    (summary : PassSummary) (s : Session) :
    analyzeAll metadata (before ++ after) summary s =
      analyzeAll metadata after (analyzeAll metadata before summary s).1
        (analyzeAll metadata before summary s).2 := by
  induction before generalizing summary s with
  | nil => rfl
  | cons key before ih => exact ih _ _

theorem SameSettings.analysis (h : SameSettings s t) (metadata : Metadata) :
    t.analysis metadata = s.analysis metadata := by
  have hevaluation : t.evaluation metadata = s.evaluation metadata := by
    funext graph cache
    simp only [evaluation, h.config, h.catalog, h.safeCalls]
  unfold Session.analysis
  rw [hevaluation]

theorem settleAll_workers (h : SameSettings s t) (metadata : Metadata) (keys : List MethodKey)
    (summary : PassSummary) :
    Worker.settleAll (s.workers metadata keys) summary t = analyzeAll metadata keys summary t := by
  induction keys generalizing summary t with
  | nil => rfl
  | cons key keys ih =>
    have hturn : (s.analysis metadata).settle key t = t.analyzeMethod metadata key := by
      rw [analyzeMethod, h.analysis]
    have hnext := h.trans (analyzes_analyzeMethod t metadata key).sameSettings
    rw [analyzeAll_cons, ← ih hnext, ← hturn]
    rfl

theorem map_key_workers (s : Session) (metadata : Metadata) (keys : List MethodKey) :
    (s.workers metadata keys).map Worker.key = keys := by
  rw [workers, List.map_map]
  exact List.map_id keys

theorem nodup_key_workers (s : Session) (metadata : Metadata) (methods : List MethodKey) :
    ((s.workers metadata (distinctKeys methods)).map Worker.key).Nodup := by
  rw [map_key_workers]
  exact nodup_distinctKeys methods

/-- A pass lets the workers of its methods come to their ends. -/
theorem exists_executes (henabled : s.config.enabled = true) (metadata : Metadata)
    (methods : List MethodKey) :
    ∃ trace results, Executes (s.workers metadata (distinctKeys methods))
        { s with passes := s.passes + 1 } trace (finished results)
        (s.runPass metadata methods).2 ∧
      (s.runPass metadata methods).1 = results.foldl (fun summary r => summary.add r.1 r.2)
        ⟨s.passes + 1, 0, 0, 0, []⟩ := by
  simp only [runPass, henabled, if_true]
  obtain ⟨trace, hfirst⟩ := executes_interleave
    (if s.config.parallel then s.schedule (s.passes + 1) else [])
    (s.workers metadata (distinctKeys methods)) { s with passes := s.passes + 1 }
  generalize Worker.interleave _ _ _ = moved at hfirst ⊢
  obtain ⟨trace', results, hrest, hsummary⟩ :=
    executes_settleAll moved.1 [] ⟨s.passes + 1, 0, 0, 0, []⟩ moved.2
  exact ⟨trace ++ trace', results, hfirst.trans hrest, hsummary⟩

/-- A pass whose methods are analysed in turn. -/
def passInTurn (s : Session) (metadata : Metadata) (methods : List MethodKey) :
    PassSummary × Session :=
  if s.config.enabled then
    analyzeAll metadata (distinctKeys methods) ⟨s.passes + 1, 0, 0, 0, []⟩
      { s with passes := s.passes + 1 }
  else (⟨s.passes + 1, 0, methods.length, 0, []⟩, { s with passes := s.passes + 1 })

/-- The methods of a pass are analysed in turn if they are not analysed at the same time. -/
theorem runPass_of_sequential (h : s.config.parallel = false) (metadata : Metadata)
    (methods : List MethodKey) : s.runPass metadata methods = s.passInTurn metadata methods := by
  have hsettings : SameSettings s { s with passes := s.passes + 1 } := ⟨rfl, rfl, rfl, rfl⟩
  rw [passInTurn, ← settleAll_workers hsettings]
  simp only [runPass, h, Bool.false_eq_true, if_false]
  rfl

/--
A pass comes to the same as one whose methods are analysed in turn, but for the order of the log
entries.
-/
theorem runPass_reordered (hs : s.Sound) (metadata : Metadata) (methods : List MethodKey) :
    (s.runPass metadata methods).1 = (s.passInTurn metadata methods).1 ∧
      Reordered { s with passes := s.passes + 1 } (s.passInTurn metadata methods).2
        (s.runPass metadata methods).2 := by
  by_cases henabled : s.config.enabled = true
  · obtain ⟨trace, results, hpass, hsummary⟩ := exists_executes henabled metadata methods
    obtain ⟨trace', results', hturns, hsummary'⟩ :=
      executes_settleAll (s.workers metadata (distinctKeys methods)) []
        ⟨s.passes + 1, 0, 0, 0, []⟩ { s with passes := s.passes + 1 }
    have hsettings : SameSettings s { s with passes := s.passes + 1 } := ⟨rfl, rfl, rfl, rfl⟩
    -- to analyse the methods in turn is one of the ways in which the workers can move
    rw [settleAll_workers hsettings] at hturns hsummary'
    obtain ⟨rfl, hreordered⟩ := reordered_of_executes hturns hpass hs.store
      (nodup_key_workers s metadata methods)
    rw [passInTurn, if_pos henabled]
    exact ⟨hsummary.trans hsummary'.symm, hreordered⟩
  · rw [runPass, if_neg henabled, passInTurn, if_neg henabled]
    exact ⟨rfl, ⟨rfl, rfl, rfl, rfl⟩, fun key => .refl key _, fun _ => rfl, rfl,
      .refl (List.prefix_refl _), .refl (List.prefix_refl _), .refl (List.prefix_refl _)⟩

end Session

end CallFold
