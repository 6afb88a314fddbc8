import CallFold.Proofs.ArrayAnalysis
import CallFold.Proofs.Evaluation
import CallFold.Proofs.RoundTrip
import CallFold.Reflection
import CallFold.Universe.Lookup
import Mathlib

/-!
# Knowing more

What is inferred in a scope is inferred in every scope that knows more: one with more resolved
calls, with more safe calls, or that follows longer chains of copies (`Scope.Below`). For arrays
this is not obvious. A longer trace can turn a store whose target was unknown into a store to the
array, in the middle of the window; but its target was a possible alias of the array before, and so
the store had spoiled the window already (`Below.storeEffect`). `Scope.inference_mono` has both.

So a reflective look-up that is resolved stays resolved, and in the same way
(`ReflectiveCall.handler_mono`).
-/

namespace CallFold

/-! ## Longer traces -/

namespace FrameGraph

variable {g : FrameGraph} {set : IndexSet} {hops hops' : Nat}

theorem traceOrigin_mono (hhops : hops ≤ hops') {stores : List Nat} {o : ArrayOrigin}
    (h : g.traceOrigin hops stores set = some o) : g.traceOrigin hops' stores set = some o := by
  induction hops generalizing hops' stores set with
  | zero => simp [traceOrigin] at h
  | succ hops ih =>
    obtain ⟨hops', rfl⟩ := Nat.exists_eq_add_one.mpr (Nat.zero_lt_of_lt hhops)
    have hle : hops ≤ hops' := Nat.le_of_succ_le_succ hhops
    rw [traceOrigin] at h ⊢
    split at h
    · simp at h
    · split at h
      · exact h
      · split at h
        · exact ih hle h
        · simp at h
      · split at h
        · split at h
          · next hnew => exact (if_pos hnew).trans (ih hle h)
          · simp at h
        · simp at h
      · split at h
        · exact ih hle h
        · simp at h
      · simp at h

theorem traceAllocation_mono (hhops : hops ≤ hops') {a : Nat}
    (h : g.traceAllocation hops set = some a) : g.traceAllocation hops' set = some a := by
  induction hops generalizing hops' set with
  | zero => simp [traceAllocation] at h
  | succ hops ih =>
    obtain ⟨hops', rfl⟩ := Nat.exists_eq_add_one.mpr (Nat.zero_lt_of_lt hhops)
    have hle : hops ≤ hops' := Nat.le_of_succ_le_succ hhops
    rw [traceAllocation] at h ⊢
    split at h
    · simp at h
    · split at h
      · exact h
      · split at h
        · exact ih hle h
        · simp at h
      · simp at h

theorem mem_copiedSlots {instruction : Instruction} {f : Frame} {held : IndexSet}
    (h : copiedSlot? instruction f = some held) : held ∈ copiedSlots instruction f := by
  cases instruction <;> simp_all [copiedSlot?, copiedSlots]

/-- What a chain of copies leads to can be reached from its start. -/
theorem reaches_of_chain {follows : Instruction → Nat → Prop} {p a : Nat} {chain : List Nat}
    (h : Chain (g.Hop follows) p chain a) (ha : a < g.length) :
    Reaches g.length g.copySources [p] a := by
  induction h with
  | here p => exact .root (List.mem_singleton_self p) ha
  | @hop p q _ _ hnext _ ih =>
    obtain ⟨i, f, hnode, hheld, -⟩ := exists_of_hop hnext
    have hroot : Reaches g.length g.copySources [p] p :=
      .root (List.mem_singleton_self p) (lt_length_of_node hnode)
    refine (ih ha).trans fun j hj hlt => .edge hroot ?_ hlt
    rw [copySources, hnode]
    exact List.mem_flatMap.mpr ⟨_, mem_copiedSlots hheld, hj⟩

/-- What a reference must be, it may be. -/
theorem reaches_of_traceAllocation {a : Nat} (h : g.traceAllocation hops set = some a) :
    Reaches g.length g.copySources set.toList a := by
  obtain ⟨p, chain, rfl, hchain, -, element, f, hnode⟩ := exists_chain_of_traceAllocation h
  exact reaches_of_chain hchain (lt_length_of_node hnode)

end FrameGraph

/-! ## Scopes that know more -/

namespace Scope

/-- The one scope knows no more than the other, about the same method and the same types. -/
structure Below (s t : Scope) : Prop where
  graph : t.graph = s.graph
  metadata : t.metadata = s.metadata
  safeCalls : ∀ signature, s.safeCalls.contains signature = true →
    t.safeCalls.contains signature = true
  depth : s.maxTraceDepth ≤ t.maxTraceDepth
  cache : s.cache.Within t.cache

variable {s t : Scope} {k : ConstantKind} {set : IndexSet} {o : ArrayOrigin} {index site : Nat}

namespace Below

theorem trace (h : s.Below t) {hops hops' : Nat} (hhops : hops ≤ hops') {constant : k.Value}
    (hs : s.trace k hops set = some constant) : t.trace k hops' set = some constant := by
  induction hops generalizing hops' set with
  | zero => simp [Scope.trace] at hs
  | succ hops ih =>
    obtain ⟨hops', rfl⟩ := Nat.exists_eq_add_one.mpr (Nat.zero_lt_of_lt hhops)
    have hle : hops ≤ hops' := Nat.le_of_succ_le_succ hhops
    rw [Scope.trace] at hs ⊢
    rw [h.graph, h.metadata]
    split at hs
    · simp at hs
    · split at hs
      · simp at hs
      · split at hs
        · exact ih hle hs
        · simp at hs
      · split at hs
        · exact ih hle hs
        · simp at hs
      · next p _ callee f hnode =>
        split at hs
        · next result hresult =>
          simp only [h.cache _ _ hresult]
          exact hs
        · simp at hs
        · -- a call that is not resolved makes no constant
          cases k <;> simp [ConstantKind.leaf?, ConstantKind.textLeaf?,
            ConstantKind.booleanLeaf?, ConstantKind.typeLeaf?] at hs
      · exact hs

theorem infer (h : s.Below t) {constant : k.Value} (hs : s.infer k set = some constant) :
    t.infer k set = some constant :=
  h.trace (Nat.succ_le_succ h.depth) hs

/-! ### Arrays -/

theorem escapesAt (h : s.Below t) (ht : t.escapesAt o index = true) :
    s.escapesAt o index = true := by
  unfold Scope.escapesAt aliases at ht ⊢
  rw [h.graph] at ht
  split at ht
  · exact ht
  · exact ht
  · exact ht
  · exact ht
  · next callee f hnode =>
    simp only [Bool.and_eq_true, Bool.not_eq_true'] at ht ⊢
    obtain ⟨⟨hleaky, hdepth⟩, hpassed⟩ := ht
    refine ⟨⟨?_, hdepth⟩, hpassed⟩
    by_contra hsafe
    rw [h.safeCalls _ (Bool.not_eq_false _ ▸ hsafe)] at hleaky
    simp at hleaky
  · simp at ht

theorem escapes (h : s.Below t) (hs : s.escapes o site = false) : t.escapes o site = false := by
  unfold Scope.escapes at hs ⊢
  rw [List.any_eq_false] at hs ⊢
  intro i hi hescapes
  rw [h.graph] at hi
  simp only [Bool.and_eq_true] at hescapes
  exact hs i hi (Bool.and_eq_true _ _ ▸ ⟨hescapes.1, h.escapesAt hescapes.2⟩)

/--
A store that does not spoil the window has the same effect. If its target becomes known only now, it
is not the array: it would have been an alias of it before.
-/
theorem storeEffect (h : s.Below t) {f : Frame} (hs : s.storeEffect k o f ≠ .spoil) :
    t.storeEffect k o f = s.storeEffect k o f := by
  unfold Scope.storeEffect at hs ⊢
  rw [h.graph]
  split at hs
  · next reference position stored _ _ _ =>
    split at hs
    · next a hmust =>
      have hmust' : s.graph.mustOriginate? t.maxTraceDepth reference = some a :=
        FrameGraph.traceAllocation_mono (Nat.succ_le_succ h.depth) hmust
      simp only [hmust']
      split at hs
      · next heq =>
        split at hs
        · next slot element hslot helement =>
          simp only [heq, if_true, hslot, h.infer helement]
        · exact absurd rfl hs
      · next hne => simp only [hne, if_false]
    · next hunknown =>
      split at hs
      · exact absurd rfl hs
      · next hno =>
        split
        · next a hmust =>
          have hne : a ≠ o.allocation := by
            rintro rfl
            exact hno (contains_reachable_iff.mpr (FrameGraph.reaches_of_traceAllocation hmust))
          rw [if_neg hne, if_neg hno]
        · rfl
  · exact absurd rfl hs

theorem windowEffect (h : s.Below t) (hs : s.windowEffect k o index ≠ .spoil) :
    t.windowEffect k o index = s.windowEffect k o index := by
  unfold Scope.windowEffect at hs ⊢
  rw [h.graph]
  split at hs
  · exact absurd rfl hs
  · next hsize =>
    rw [if_neg hsize, if_neg hsize]
    split at hs
    · split at hs
      · exact h.storeEffect hs
      · exact absurd rfl hs
    · rfl

theorem elements? (h : s.Below t) {list : List k.Value}
    (hs : s.elements? k o site = some list) : t.elements? k o site = some list := by
  unfold Scope.elements? at hs ⊢
  dsimp only at hs ⊢
  split at hs
  · simp at hs
  · next hlong =>
    rw [if_neg hlong]
    split at hs
    · next written hcollect =>
      have hwindow : (List.range' o.allocation (site - o.allocation)).map (t.windowEffect k o) =
          (List.range' o.allocation (site - o.allocation)).map (s.windowEffect k o) := by
        refine List.map_congr_left fun i hi => h.windowEffect ?_
        exact ne_spoil_of_collect hcollect _ (List.mem_map_of_mem hi)
      rw [hwindow, hcollect]
      exact hs
    · simp at hs

theorem inferArray (h : s.Below t) {list : List k.Value}
    (hs : s.inferArray k set site = some list) : t.inferArray k set site = some list := by
  unfold Scope.inferArray at hs ⊢
  split at hs
  · simp at hs
  · next o horigin =>
    have horigin' : t.graph.origin? t.maxTraceDepth set = some o := by
      rw [h.graph]
      exact FrameGraph.traceOrigin_mono (Nat.succ_le_succ h.depth) horigin
    simp only [horigin']
    split at hs
    · simp at hs
    · next hstays =>
      rw [Bool.not_eq_true, Bool.or_eq_false_iff] at hstays
      rw [hstays.1, h.escapes hstays.2]
      exact h.elements? hs

end Below

/-- Whoever knows more infers what was inferred before, of values and of arrays. -/
theorem inference_mono (h : s.Below t) (k : ConstantKind) (set : IndexSet) :
    (∀ constant, s.infer k set = some constant → t.infer k set = some constant) ∧
    ∀ site list, s.inferArray k set site = some list → t.inferArray k set site = some list :=
  ⟨fun _ => h.infer, fun _ _ => h.inferArray⟩

/-- Makes a type by a call. -/
def currentType : MethodRef where
  kind := .static
  signature := ⟨"app/Types", "current", "()Ljava/lang/Class;"⟩
  descriptor := ⟨[], some (.object "java/lang/Class")⟩
  parsed := MethodDescriptor.parse_eq_ok_iff.mpr ⟨by decide, rfl⟩

/-- Takes an array of types. -/
def takeTypes : MethodRef where
  kind := .static
  signature := ⟨"app/Types", "take", "([Ljava/lang/Class;)V"⟩
  descriptor := ⟨[.array (.object "java/lang/Class")], none⟩
  parsed := MethodDescriptor.parse_eq_ok_iff.mpr ⟨by decide, rfl⟩

/-- Fills an array with the result of a call, passes it on, and makes the same call again. -/
def passTypes : MethodBody where
  name := "passTypes"
  descriptor := ⟨[], none⟩
  flags := .static
  maxLocals := 1
  code := #[.intConst 1, .newArray (.object "java/lang/Class"), .store 0, .load 0, .intConst 0,
    .invoke currentType, .arrayStore, .load 0, .invoke takeTypes, .invoke currentType, .pop,
    .ret false]

/-- The first call of `passTypes` that makes a type is resolved. -/
def firstResolved : OutcomeCache :=
  (OutcomeCache.empty.insert 5 (.resolved (.type (.named "app.First")))).2

/-- So is the second one. -/
def bothResolved : OutcomeCache :=
  (firstResolved.insert 9 (.failed (.classNotFound "app.Second"))).2

/-- A scope for `passTypes`. -/
def typesScope (g : FrameGraph) (safeCalls : SafeCalls) (maxTraceDepth : Nat)
    (cache : OutcomeCache) : Scope :=
  ⟨g, Universe.metadata .empty, safeCalls, maxTraceDepth, cache⟩

theorem below_bothResolved (g : FrameGraph) : (typesScope g .empty 2 firstResolved).Below
    (typesScope g (.insert .empty takeTypes.signature) 9 bothResolved) where
  graph := rfl
  metadata := rfl
  safeCalls := fun _ hsafe => by simp [typesScope, SafeCalls.contains, SafeCalls.empty] at hsafe
  depth := show 2 ≤ 9 by decide
  cache := OutcomeCache.within_insert (show firstResolved.contains 9 = false by decide) _

/--
The array is found with just enough hops and one resolved call. It is found still when another call
is resolved or safe, and longer chains are followed.
-/
theorem inference_mono_passTypes : ∃ g, FrameGraph.build passTypes = .ok g ∧
    (typesScope g .empty 2 firstResolved).inferArray .type (.singleton 7) 8 =
      some [.named "app.First"] ∧
    (typesScope g (.insert .empty takeTypes.signature) 9 bothResolved).inferArray .type
      (.singleton 7) 8 = some [.named "app.First"] := by
  obtain ⟨g, hbuild, hfound⟩ := FrameGraph.exists_of_build_map (m := passTypes)
    (show (FrameGraph.build passTypes).toOption.map (fun g =>
      (typesScope g .empty 2 firstResolved).inferArray .type (.singleton 7) 8) =
      some (some [.named "app.First"]) by cbv)
  exact ⟨g, hbuild, hfound,
    (inference_mono (below_bothResolved g) .type (.singleton 7)).2 8 _ hfound⟩

end Scope

/-! ## Reflective look-ups -/

namespace ReflectiveCall

theorem ask_mono {α : Type} {slot : Except Error IndexSet} {find find' : IndexSet → Option α}
    {rest rest' : α → Except Error (Option Resolution)} {r : Resolution}
    (hfind : ∀ set a, find set = some a → find' set = some a)
    (hrest : ∀ a, rest a = .ok (some r) → rest' a = .ok (some r))
    (h : ask slot find rest = .ok (some r)) : ask slot find' rest' = .ok (some r) := by
  unfold ask at h ⊢
  cases slot with
  | error e => simp [bind, Except.bind] at h
  | ok set =>
    simp only [bind, Except.bind] at h ⊢
    split at h
    · next a ha =>
      rw [hfind set a ha]
      exact hrest a h
    · simp [pure, Except.pure] at h

/-- A look-up that is resolved is resolved in the same way by one who knows more. -/
theorem handler_mono {s t : Scope} (h : s.Below t) (c : ReflectiveCall)
    {context : CallContext} {r : Resolution} (hr : c.handler s context = .ok (some r)) :
    c.handler t context = .ok (some r) := by
  have hinfer : ∀ k set a, s.infer k set = some a → t.infer k set = some a :=
    fun k set a => h.infer
  have harray : ∀ set a, s.inferArray .type set context.site = some a →
      t.inferArray .type set context.site = some a := fun set a => h.inferArray
  -- the look-ups themselves are the same
  cases c <;> unfold handler at hr ⊢ <;> simp only [h.metadata]
  case forName => exact ask_mono (hinfer .text) (fun _ => id) hr
  case forNameInitialize =>
    exact ask_mono (hinfer .text) (fun _ => ask_mono (hinfer .boolean) fun _ => id) hr
  case field => exact ask_mono (hinfer .type) (fun _ => ask_mono (hinfer .text) fun _ => id) hr
  case method =>
    exact ask_mono (hinfer .type) (fun _ => ask_mono (hinfer .text) fun _ =>
      ask_mono harray fun _ => id) hr
  case constructor => exact ask_mono (hinfer .type) (fun _ => ask_mono harray fun _ => id) hr
  case bulk => exact ask_mono (hinfer .type) (fun _ => id) hr
  case findStatic | findVirtual =>
    exact ask_mono (hinfer .lookupHandle) (fun _ => ask_mono (hinfer .type) fun _ =>
      ask_mono (hinfer .text) fun _ => ask_mono (hinfer .parameterList) fun _ => id) hr
  case findConstructor =>
    exact ask_mono (hinfer .lookupHandle) (fun _ => ask_mono (hinfer .type) fun _ =>
      ask_mono (hinfer .parameterList) fun _ => id) hr

end ReflectiveCall

end CallFold
