import CallFold.Proofs.Sources
import Mathlib

/-!
# Chains of single producers

Three tracers follow a value from one single producer to the next: `Scope.trace` to a constant,
`FrameGraph.traceOrigin` and `FrameGraph.traceAllocation` to an allocation. Each of them stops after
a number of hops. What they find is said here without them, as a list of the instructions on the way
(`Chain`), and the bound is a bound on its length.

A single producer has at most one single producer to go on to. So a chain that has come to its end
has not been anywhere twice (`Chain.nodup`), and it is no longer than the method
(`FrameGraph.length_le_of_chain`).
-/

namespace CallFold

/-! ## Chains -/

/-- Hops lead from one index to another; everything on the way is listed, with both ends. -/
inductive Chain (next : Nat → Nat → Prop) : Nat → List Nat → Nat → Prop where
  | here (p : Nat) : Chain next p [p] p
  | hop {p q r : Nat} {rest : List Nat} (h : next p q) (hrest : Chain next q rest r) :
      Chain next p (p :: rest) r

namespace Chain

variable {next : Nat → Nat → Prop} {p q r : Nat} {chain chain' : List Nat}

/-- Everything on a chain is where another chain to the same end starts. -/
theorem of_mem (h : Chain next p chain r) (hq : q ∈ chain) :
    ∃ before after, chain = before ++ q :: after ∧ Chain next q (q :: after) r := by
  induction h with
  | here p =>
    obtain rfl := List.mem_singleton.mp hq
    exact ⟨[], [], rfl, .here q⟩
  | @hop p q' r rest hnext hrest ih =>
    rcases List.mem_cons.mp hq with rfl | hmem
    · exact ⟨[], rest, rfl, .hop hnext hrest⟩
    · obtain ⟨before, after, rfl, hafter⟩ := ih hmem
      exact ⟨p :: before, after, rfl, hafter⟩

/-- Where hops are determined, so is the chain to an end from which no hop leads on. -/
theorem unique (h : Chain next p chain r) (h' : Chain next p chain' r)
    (hdet : ∀ p q q', next p q → next p q' → q = q') (hend : ∀ q, ¬ next r q) :
    chain = chain' := by
  induction h generalizing chain' with
  | here p =>
    cases h' with
    | here => rfl
    | hop hnext _ => exact absurd hnext (hend _)
  | @hop p q r rest hnext _ ih =>
    cases h' with
    | here => exact absurd hnext (hend _)
    | hop hnext' hrest' =>
      obtain rfl := hdet _ _ _ hnext hnext'
      rw [ih hrest' hend]

/-- A chain to an end from which no hop leads on does not come to an index twice. -/
theorem nodup (h : Chain next p chain r) (hdet : ∀ p q q', next p q → next p q' → q = q')
    (hend : ∀ q, ¬ next r q) : chain.Nodup := by
  induction h with
  | here p => exact List.nodup_singleton p
  | @hop p q r rest hnext hrest ih =>
    refine List.nodup_cons.mpr ⟨fun hmem => ?_, ih hend⟩
    -- from its second visit on, the chain would go the whole way once more
    obtain ⟨before, after, rfl, hafter⟩ := hrest.of_mem hmem
    have hsame := unique (.hop hnext hrest) hafter hdet hend
    have hlength := congrArg List.length hsame
    rw [List.length_cons, List.length_cons, List.length_append, List.length_cons] at hlength
    omega

/-- What a chain comes to, an endless one comes to as well where hops are determined. -/
theorem of_endless (h : Chain next p chain r) (hdet : ∀ p q q', next p q → next p q' → q = q')
    {endless : Nat → Nat} (hendless : ∀ n, next (endless n) (endless (n + 1))) {n : Nat}
    (hp : p = endless n) : ∃ n', r = endless n' := by
  induction h generalizing n with
  | here p => exact ⟨n, hp⟩
  | hop hnext _ ih =>
    rw [hp] at hnext
    exact ih (hdet _ _ _ hnext (hendless n))

end Chain

/-! ## Hops between single producers -/

namespace FrameGraph

/--
The instruction at `p` hands on what only `q` produced, and it is one that is followed to such a
producer.
-/
def Hop (g : FrameGraph) (follows : Instruction → Nat → Prop) (p q : Nat) : Prop :=
  ∃ i f place, g.node? p = some (i, f) ∧ i.copiedPlace? = some place ∧
    f.view.get? place = some (.singleton q) ∧ follows i q

/-- Every instruction that hands on a single value is followed. -/
def AnyCopy : Instruction → Nat → Prop := fun _ _ => True

/-- Loads and stores of local slots are followed. -/
def ThroughLocals : Instruction → Nat → Prop
  | .load _, _ | .store _, _ => True
  | _, _ => False

/-- Loads and duplicates are followed, and stores of what an allocation has just made. -/
def ToAllocation (g : FrameGraph) : Instruction → Nat → Prop
  | .load _, _ | .dup, _ => True
  | .store _, q => ∃ element, g.instruction? q = some (.newArray element)
  | _, _ => False

variable {g : FrameGraph} {follows : Instruction → Nat → Prop} {p q r hops : Nat}
  {chain : List Nat} {set : IndexSet}

theorem hop_unique (h : g.Hop follows p q) (h' : g.Hop follows p r) : q = r := by
  obtain ⟨i, f, place, hnode, hplace, hget, -⟩ := h
  obtain ⟨i', f', place', hnode', hplace', hget', -⟩ := h'
  obtain ⟨rfl, rfl⟩ := Prod.mk.inj (Option.some.inj (hnode.symm.trans hnode'))
  obtain rfl := Option.some.inj (hplace.symm.trans hplace')
  have hsame : IndexSet.singleton q = .singleton r := Option.some.inj (hget.symm.trans hget')
  exact IndexSet.mem_singleton.mp (hsame ▸ IndexSet.mem_singleton.mpr rfl)

theorem lt_length_of_node {i : Instruction} {f : Frame} (h : g.node? p = some (i, f)) :
    p < g.length :=
  lt_length_of_frame (node?_eq_some_iff.mp h).2

/-- No hop leads on from an instruction that does not hand on a single value. -/
theorem not_hop {i : Instruction} {f : Frame} (h : g.node? p = some (i, f))
    (hcopy : i.copiedPlace? = none) : ¬ g.Hop follows p q := by
  rintro ⟨i', f', place, hnode, hplace, -⟩
  obtain ⟨rfl, rfl⟩ := Prod.mk.inj (Option.some.inj (h.symm.trans hnode))
  rw [hcopy] at hplace
  simp at hplace

/-- A chain that ends where a value is made is no longer than the method. -/
theorem length_le_of_chain {i : Instruction} {f : Frame} (h : Chain (g.Hop follows) p chain q)
    (hnode : g.node? q = some (i, f)) (hcopy : i.copiedPlace? = none) :
    chain.length ≤ g.length := by
  have hnodup := h.nodup (fun _ _ _ => hop_unique) fun _ => not_hop hnode hcopy
  have hsubset : chain ⊆ List.range g.length := by
    intro j hj
    rw [List.mem_range]
    obtain ⟨before, after, rfl, hafter⟩ := h.of_mem hj
    cases hafter with
    | here => exact lt_length_of_node hnode
    | hop hnext _ =>
      obtain ⟨_, _, _, hj', -⟩ := hnext
      exact lt_length_of_node hj'
  calc chain.length ≤ (List.range g.length).length := hnodup.length_le_of_subset hsubset
    _ = g.length := List.length_range

theorem hop_of_copiedSlot {i : Instruction} {f : Frame} (hnode : g.node? p = some (i, f))
    (hheld : copiedSlot? i f = some (.singleton q)) (hfollows : follows i q) :
    g.Hop follows p q := by
  rw [copiedSlot?_eq] at hheld
  obtain ⟨place, hplace, hget⟩ := Option.bind_eq_some_iff.mp hheld
  exact ⟨i, f, place, hnode, hplace, hget, hfollows⟩

theorem exists_of_hop (h : g.Hop follows p q) :
    ∃ i f, g.node? p = some (i, f) ∧ copiedSlot? i f = some (.singleton q) ∧ follows i q := by
  obtain ⟨i, f, place, hnode, hplace, hget, hfollows⟩ := h
  refine ⟨i, f, hnode, ?_, hfollows⟩
  rw [copiedSlot?_eq, hplace]
  exact hget

/-- A chain leads to its end. -/
theorem leads_of_chain (h : Chain (g.Hop follows) p chain q) : g.Leads (.singleton p) q := by
  induction h with
  | here p => exact .here (IndexSet.single?_singleton p)
  | @hop p _ _ _ hnext _ ih =>
    obtain ⟨i, f, hnode, hheld, -⟩ := exists_of_hop hnext
    exact .hop (IndexSet.single?_singleton p) hnode hheld ih

/-! ## Where references lead -/

/-- A reference comes from an allocation within some hops along single copies. -/
def MustComeFrom (g : FrameGraph) (hops : Nat) (set : IndexSet) (a : Nat) : Prop :=
  ∃ p chain, set = .singleton p ∧ Chain (g.Hop AnyCopy) p chain a ∧ chain.length ≤ hops + 1 ∧
    ∃ element f, g.node? a = some (.newArray element, f)

theorem exists_chain_of_traceAllocation {a : Nat} (h : g.traceAllocation hops set = some a) :
    ∃ p chain, set = .singleton p ∧ Chain (g.Hop AnyCopy) p chain a ∧ chain.length ≤ hops ∧
      ∃ element f, g.node? a = some (.newArray element, f) := by
  induction hops generalizing set with
  | zero => simp [traceAllocation] at h
  | succ hops ih =>
    rw [traceAllocation] at h
    split at h
    · simp at h
    · next p hsingle =>
      have hset := IndexSet.single?_eq_some_iff.mp hsingle
      split at h
      · next element f hnode =>
        obtain rfl := Option.some.inj h
        exact ⟨p, [p], hset, .here p, Nat.succ_le_succ (Nat.zero_le hops), element, f, hnode⟩
      · next i f _ hnode =>
        split at h
        · next held hheld =>
          obtain ⟨q, chain, rfl, hchain, hlength, hnew⟩ := ih h
          exact ⟨p, p :: chain, hset, .hop (hop_of_copiedSlot hnode hheld trivial) hchain,
            Nat.succ_le_succ hlength, hnew⟩
        · simp at h
      · simp at h

theorem leads_of_traceAllocation {a : Nat} (h : g.traceAllocation hops set = some a) :
    g.Leads set a ∧ ∃ element, g.instruction? a = some (.newArray element) := by
  obtain ⟨p, chain, rfl, hchain, -, element, f, hnode⟩ := exists_chain_of_traceAllocation h
  exact ⟨leads_of_chain hchain, element, (node?_eq_some_iff.mp hnode).1⟩

theorem traceAllocation_of_chain {a : Nat} (h : Chain (g.Hop AnyCopy) p chain a)
    (hlength : chain.length ≤ hops) (hnew : ∃ element f, g.node? a = some (.newArray element, f)) :
    g.traceAllocation hops (.singleton p) = some a := by
  induction h generalizing hops with
  | here p =>
    obtain ⟨hops, rfl⟩ := Nat.exists_eq_add_one.mpr hlength
    obtain ⟨element, f, hnode⟩ := hnew
    simp only [traceAllocation, IndexSet.single?_singleton, hnode]
  | @hop p q r rest hnext _ ih =>
    obtain ⟨hops, rfl⟩ := Nat.exists_eq_add_one.mpr (Nat.zero_lt_of_lt hlength)
    obtain ⟨i, f, hnode, hheld, -⟩ := exists_of_hop hnext
    simp only [traceAllocation, IndexSet.single?_singleton, hnode]
    split
    · next heq =>
      obtain ⟨rfl, rfl⟩ := Prod.mk.inj (Option.some.inj heq)
      simp [copiedSlot?] at hheld
    · next heq =>
      obtain ⟨rfl, rfl⟩ := Prod.mk.inj (Option.some.inj heq)
      simp only [hheld]
      exact ih (Nat.le_of_succ_le_succ hlength) hnew
    · next heq => simp at heq

/-- What a reference must be is what a chain of copies leads to. -/
theorem mustOriginate?_eq_some_iff {depth a : Nat} :
    g.mustOriginate? depth set = some a ↔ g.MustComeFrom depth set a := by
  constructor
  · exact exists_chain_of_traceAllocation
  · rintro ⟨p, chain, rfl, hchain, hlength, hnew⟩
    exact traceAllocation_of_chain hchain hlength hnew

/-! ## Arrays of literal length -/

end FrameGraph

/-- The instruction pushes an integer that is written in the code. -/
inductive Instruction.PushesInt (n : Int32) : Instruction → Prop where
  | intConst : PushesInt n (.intConst n)
  | bytePush : PushesInt n (.bytePush n)
  | shortPush : PushesInt n (.shortPush n)
  | ldc : PushesInt n (.ldc (.int n))

theorem naturalOf?_eq_some_iff {value : Int32} {n : Nat} :
    naturalOf? value = some n ↔ value.toInt = n := by
  unfold naturalOf?
  split
  · next hnonneg =>
    rw [Option.some.injEq]
    omega
  · next hneg =>
    simp only [reduceCtorEq, false_iff]
    omega

namespace FrameGraph

variable {g : FrameGraph} {p hops n : Nat} {chain stores : List Nat} {set : IndexSet}
  {o : ArrayOrigin}

/-- The only producer of a value pushes a natural number that is written in the code. -/
def IsLiteral (g : FrameGraph) (set : IndexSet) (n : Nat) : Prop :=
  ∃ p i value, set = .singleton p ∧ g.instruction? p = some i ∧ i.PushesInt value ∧
    value.toInt = n

theorem literalInt?_eq_some_iff {value : Int32} :
    g.literalInt? set = some value ↔
      ∃ p i, set = .singleton p ∧ g.instruction? p = some i ∧ i.PushesInt value := by
  constructor
  · intro h
    simp only [literalInt?, bind, Option.bind_eq_some_iff] at h
    obtain ⟨p, hsingle, i, hi, hvalue⟩ := h
    refine ⟨p, i, IndexSet.single?_eq_some_iff.mp hsingle, hi, ?_⟩
    split at hvalue
    · exact Option.some.inj hvalue ▸ .intConst
    · exact Option.some.inj hvalue ▸ .bytePush
    · exact Option.some.inj hvalue ▸ .shortPush
    · exact Option.some.inj hvalue ▸ .ldc
    · simp at hvalue
  · rintro ⟨p, i, rfl, hi, hpush⟩
    unfold literalInt?
    rw [IndexSet.single?_singleton]
    cases hpush <;> simp [hi]

theorem isLiteral_iff : (g.literalInt? set).bind naturalOf? = some n ↔ g.IsLiteral set n := by
  simp only [Option.bind_eq_some_iff, literalInt?_eq_some_iff, naturalOf?_eq_some_iff]
  constructor
  · rintro ⟨value, ⟨p, i, hset, hi, hpush⟩, hvalue⟩
    exact ⟨p, i, value, hset, hi, hpush, hvalue⟩
  · rintro ⟨p, i, value, hset, hi, hpush, hvalue⟩
    exact ⟨value, ⟨p, i, hset, hi, hpush⟩, hvalue⟩

/-- A reachable instruction allocates an array whose length is written in the code. -/
def AllocatesArray (g : FrameGraph) (a length : Nat) : Prop :=
  ∃ element f size, g.node? a = some (.newArray element, f) ∧
    f.view.get? (.stack 0) = some size ∧ g.IsLiteral size length

theorem literalLength?_eq_some_iff {f : Frame} :
    g.literalLength? f = some n ↔ ∃ size, f.view.get? (.stack 0) = some size ∧
      g.IsLiteral size n := by
  simp only [literalLength?, bind, Option.bind_eq_some_iff, ← isLiteral_iff]
  rfl

/-- Whether an instruction stores to a local slot. -/
def isStoreAt (g : FrameGraph) (j : Nat) : Bool :=
  match g.instruction? j with
  | some (.store _) => true
  | _ => false

theorem isNewArrayOnly_singleton {q : Nat} :
    g.isNewArrayOnly (.singleton q) = true ↔
      ∃ element, g.instruction? q = some (.newArray element) := by
  unfold isNewArrayOnly
  rw [IndexSet.single?_singleton, Option.bind_some]
  cases hq : g.instruction? q with
  | none => simp
  | some i => cases i <;> simp [Instruction.isNewArray]

/--
A reference comes from an allocation of literal length within some hops. The stores on the way are
listed after those that were passed before.
-/
def OriginatesFrom (g : FrameGraph) (hops : Nat) (stores : List Nat) (set : IndexSet)
    (o : ArrayOrigin) : Prop :=
  ∃ p chain, set = .singleton p ∧ Chain (g.Hop g.ToAllocation) p chain o.allocation ∧
    chain.length ≤ hops ∧ g.AllocatesArray o.allocation o.length ∧
    o.stores = stores ++ chain.filter g.isStoreAt

theorem isStoreAt_of_node {i : Instruction} {f : Frame} (h : g.node? p = some (i, f)) :
    g.isStoreAt p = true ↔ ∃ slot, i = .store slot := by
  rw [isStoreAt, (node?_eq_some_iff.mp h).1]
  split <;> simp_all

theorem OriginatesFrom.hop {q : Nat} (hset : set = .singleton p)
    (hhop : g.Hop g.ToAllocation p q)
    (h : g.OriginatesFrom hops (stores ++ [p].filter g.isStoreAt) (.singleton q) o) :
    g.OriginatesFrom (hops + 1) stores set o := by
  obtain ⟨q', chain, heq, hchain, hlength, hnew, hstores⟩ := h
  obtain rfl : q' = q := IndexSet.mem_singleton.mp (heq ▸ IndexSet.mem_singleton.mpr rfl)
  refine ⟨p, p :: chain, hset, .hop hhop hchain, Nat.succ_le_succ hlength, hnew, ?_⟩
  rw [hstores, List.append_assoc, ← List.filter_append]
  rfl

theorem originatesFrom_of_traceOrigin (h : g.traceOrigin hops stores set = some o) :
    g.OriginatesFrom hops stores set o := by
  induction hops generalizing stores set with
  | zero => simp [traceOrigin] at h
  | succ hops ih =>
    rw [traceOrigin] at h
    split at h
    · simp at h
    · next p hsingle =>
      have hset := IndexSet.single?_eq_some_iff.mp hsingle
      split at h
      · next element f hnode =>
        obtain ⟨length, hlength, rfl⟩ := Option.map_eq_some_iff.mp h
        obtain ⟨size, hsize, hliteral⟩ := literalLength?_eq_some_iff.mp hlength
        have hno : ¬ g.isStoreAt p = true := by simp [isStoreAt_of_node hnode]
        exact ⟨p, [p], hset, .here p, Nat.succ_le_succ (Nat.zero_le hops),
          ⟨element, f, size, hnode, hsize, hliteral⟩, by simp [hno]⟩
      · next slot f hnode =>
        split at h
        · next held hheld =>
          obtain ⟨q, -, rfl, -⟩ := ih h
          have hno : ¬ g.isStoreAt p = true := by simp [isStoreAt_of_node hnode]
          refine .hop hset (hop_of_copiedSlot hnode hheld trivial) (ih ?_)
          simpa [hno] using h
        · simp at h
      · next slot f hnode =>
        split at h
        · next stored hstored =>
          split at h
          · next hnewArray =>
            obtain ⟨q, -, rfl, -⟩ := ih h
            have hyes : g.isStoreAt p = true := by simp [isStoreAt_of_node hnode]
            rw [isNewArrayOnly_singleton] at hnewArray
            refine .hop hset (hop_of_copiedSlot hnode hstored hnewArray) (ih ?_)
            simpa [hyes] using h
          · simp at h
        · simp at h
      · next f hnode =>
        split at h
        · next copied hcopied =>
          obtain ⟨q, -, rfl, -⟩ := ih h
          have hno : ¬ g.isStoreAt p = true := by simp [isStoreAt_of_node hnode]
          refine .hop hset (hop_of_copiedSlot hnode hcopied trivial) (ih ?_)
          simpa [hno] using h
        · simp at h
      · simp at h

/-- A traced array comes from an allocation of literal length. -/
theorem leads_of_traceOrigin (h : g.traceOrigin hops stores set = some o) :
    g.Leads set o.allocation ∧ ∃ element f, g.node? o.allocation = some (.newArray element, f) ∧
      g.literalLength? f = some o.length := by
  obtain ⟨p, chain, rfl, hchain, -, ⟨element, f, size, hnode, hsize, hliteral⟩, -⟩ :=
    originatesFrom_of_traceOrigin h
  exact ⟨leads_of_chain hchain, element, f, hnode,
    literalLength?_eq_some_iff.mpr ⟨size, hsize, hliteral⟩⟩

theorem traceOrigin_of_chain {a : Nat} (h : Chain (g.Hop g.ToAllocation) p chain a)
    (hlength : chain.length ≤ hops) (hnew : g.AllocatesArray a n) :
    g.traceOrigin hops stores (.singleton p) =
      some { allocation := a, length := n, stores := stores ++ chain.filter g.isStoreAt } := by
  induction h generalizing hops stores with
  | here p =>
    obtain ⟨hops, rfl⟩ := Nat.exists_eq_add_one.mpr hlength
    obtain ⟨element, f, size, hnode, hsize, hliteral⟩ := hnew
    have hno : ¬ g.isStoreAt p = true := by simp [isStoreAt_of_node hnode]
    have hlength := literalLength?_eq_some_iff.mpr ⟨size, hsize, hliteral⟩
    simp [traceOrigin, IndexSet.single?_singleton, hnode, hlength, hno]
  | @hop p q r rest hnext _ ih =>
    obtain ⟨hops, rfl⟩ := Nat.exists_eq_add_one.mpr (Nat.zero_lt_of_lt hlength)
    obtain ⟨i, f, hnode, hheld, hfollows⟩ := exists_of_hop hnext
    have hrest : ∀ stores, g.traceOrigin hops stores (.singleton q) =
        some ⟨r, n, stores ++ rest.filter g.isStoreAt⟩ :=
      fun _ => ih (Nat.le_of_succ_le_succ hlength) hnew
    have hstore := isStoreAt_of_node hnode
    rw [traceOrigin, IndexSet.single?_singleton]
    cases i with
    | load slot =>
      have hslot : f.slot? slot = some (.singleton q) := hheld
      simp only [hnode, hslot, hrest]
      simp_all
    | dup =>
      have htop : f.top? = some (.singleton q) := hheld
      simp only [hnode, htop, hrest]
      simp_all
    | store slot =>
      have htop : f.top? = some (.singleton q) := hheld
      have hnewArray : g.isNewArrayOnly (.singleton q) = true :=
        isNewArrayOnly_singleton.mpr hfollows
      simp only [hnode, htop, hrest, hnewArray]
      simp_all
    | _ => exact absurd hfollows id

/-- The array that a reference is known to be is what a chain to an allocation leads to. -/
theorem origin?_eq_some_iff {depth : Nat} :
    g.origin? depth set = some o ↔ g.OriginatesFrom (depth + 1) [] set o := by
  constructor
  · exact originatesFrom_of_traceOrigin
  · rintro ⟨p, chain, rfl, hchain, hlength, hnew, hstores⟩
    rw [origin?, traceOrigin_of_chain hchain hlength hnew, ← hstores]

end FrameGraph

/-! ## Constants -/

namespace ConstantKind

variable {i : Instruction}

theorem textLeaf?_eq_some_iff {constant : String} :
    textLeaf? i = some constant ↔ i = .ldc (.text constant) := by
  unfold textLeaf?
  split
  · simp
  · next h => simpa using h constant

theorem booleanLeaf?_eq_some_iff {constant : Bool} :
    booleanLeaf? i = some constant ↔ i = .intConst (if constant then 1 else 0) := by
  unfold booleanLeaf?
  split
  · next value =>
    by_cases h0 : value = 0
    · cases constant <;> simp [h0]
    · by_cases h1 : value = 1
      · cases constant <;> simp [h1]
      · cases constant <;> simp [h0, h1]
  · next h => simpa using h _

theorem typeLeaf?_eq_some {m : Metadata} {constant : TypeHandle}
    (h : typeLeaf? m i = some constant) :
    (∃ descriptor, i = .ldc (.type descriptor) ∧
      m.resolveDescriptor descriptor = some constant) ∨
    ∃ field type, i = .getStatic field ∧
      primitiveTypeField? field.owner field.name = some type ∧ constant = .primitive type := by
  unfold typeLeaf? at h
  split at h
  · next descriptor =>
    split at h
    · exact Or.inl ⟨descriptor, rfl, h⟩
    · simp at h
  · next field =>
    obtain ⟨type, htype, rfl⟩ := Option.map_eq_some_iff.mp h
    exact Or.inr ⟨field, type, rfl, htype, rfl⟩
  · simp at h

/-- What makes a constant by itself makes a value, puts it on the stack and does no more. -/
theorem pushes_of_leaf {m : Metadata} {k : ConstantKind} {constant : k.Value}
    (h : leaf? m i k = some constant) :
    i.isCopy = false ∧ i.writtenSlot? = none ∧ i.filled = 1 := by
  cases k with
  | text =>
    obtain rfl := textLeaf?_eq_some_iff.mp h
    exact ⟨rfl, rfl, rfl⟩
  | boolean =>
    obtain rfl := booleanLeaf?_eq_some_iff.mp h
    exact ⟨rfl, rfl, rfl⟩
  | type =>
    rcases typeLeaf?_eq_some h with ⟨_, rfl, _⟩ | ⟨_, _, rfl, _⟩
    · exact ⟨rfl, rfl, rfl⟩
    · exact ⟨rfl, rfl, rfl⟩
  | parameterList => simp [leaf?] at h
  | lookupHandle => simp [leaf?] at h

/-- A call does not make a constant by itself. -/
theorem leaf?_invoke (m : Metadata) (callee : MethodRef) (k : ConstantKind) :
    leaf? m (.invoke callee) k = none := by
  cases k <;> rfl

end ConstantKind

namespace Scope

variable {s : Scope} {k : ConstantKind} {constant : k.Value} {set : IndexSet} {p q hops : Nat}
  {chain : List Nat}

/-- An instruction makes a constant of a kind, by itself or as a call that is resolved. -/
inductive MakesConstant (s : Scope) (k : ConstantKind) (constant : k.Value) (q : Nat) : Prop where
  | leaf {i : Instruction} (hi : s.graph.instruction? q = some i)
      (hleaf : ConstantKind.leaf? s.metadata i k = some constant)
  | call {callee : MethodRef} {r : ResolvedValue}
      (hi : s.graph.instruction? q = some (.invoke callee))
      (hcache : s.cache.get? q = some (.resolved r))
      (hr : ConstantKind.ofResolved? r k = some constant)

/-- What makes a constant does not hand on a value. -/
theorem MakesConstant.not_copy (h : s.MakesConstant k constant q) :
    ∃ i, s.graph.instruction? q = some i ∧ i.isCopy = false := by
  cases h with
  | leaf hi hleaf => exact ⟨_, hi, (ConstantKind.pushes_of_leaf hleaf).1⟩
  | call hi => exact ⟨_, hi, rfl⟩

/-- A value comes from a reachable instruction that makes a constant, within some hops. -/
def IsConstant (s : Scope) (k : ConstantKind) (hops : Nat) (set : IndexSet)
    (constant : k.Value) : Prop :=
  ∃ p chain q, set = .singleton p ∧ Chain (s.graph.Hop FrameGraph.ThroughLocals) p chain q ∧
    chain.length ≤ hops ∧ s.MakesConstant k constant q ∧ ∃ f, s.graph.frame? q = some f

theorem IsConstant.hop (hset : set = .singleton p)
    (hhop : s.graph.Hop FrameGraph.ThroughLocals p q)
    (h : s.IsConstant k hops (.singleton q) constant) : s.IsConstant k (hops + 1) set constant := by
  obtain ⟨q', chain, r, heq, hchain, hlength, hmakes, hframe⟩ := h
  obtain rfl : q' = q := IndexSet.mem_singleton.mp (heq ▸ IndexSet.mem_singleton.mpr rfl)
  exact ⟨p, p :: chain, r, hset, .hop hhop hchain, Nat.succ_le_succ hlength, hmakes, hframe⟩

theorem isConstant_of_trace (h : s.trace k hops set = some constant) :
    s.IsConstant k hops set constant := by
  induction hops generalizing set with
  | zero => simp [trace] at h
  | succ hops ih =>
    rw [trace] at h
    split at h
    · simp at h
    · next p hsingle =>
      have hset := IndexSet.single?_eq_some_iff.mp hsingle
      have hhere : ∀ i f, s.graph.node? p = some (i, f) → s.MakesConstant k constant p →
          s.IsConstant k (hops + 1) set constant := by
        intro i f hnode hmakes
        exact ⟨p, [p], p, hset, .here p, Nat.succ_le_succ (Nat.zero_le hops), hmakes, f,
          (FrameGraph.node?_eq_some_iff.mp hnode).2⟩
      split at h
      · simp at h
      · next slot f hnode =>
        split at h
        · next held hheld =>
          obtain ⟨q, -, -, rfl, -⟩ := ih h
          exact .hop hset (FrameGraph.hop_of_copiedSlot hnode hheld trivial) (ih h)
        · simp at h
      · next slot f hnode =>
        split at h
        · next stored hstored =>
          obtain ⟨q, -, -, rfl, -⟩ := ih h
          exact .hop hset (FrameGraph.hop_of_copiedSlot hnode hstored trivial) (ih h)
        · simp at h
      · next callee f hnode =>
        have hi := (FrameGraph.node?_eq_some_iff.mp hnode).1
        split at h
        · next r hcache => exact hhere _ _ hnode (.call hi hcache h)
        · simp at h
        · exact hhere _ _ hnode (.leaf hi h)
      · next i f _ _ _ hnode =>
        exact hhere _ _ hnode (.leaf (FrameGraph.node?_eq_some_iff.mp hnode).1 h)

/-- An inference follows single producers to an instruction that makes the constant. -/
theorem exists_of_trace (h : s.trace k hops set = some constant) :
    ∃ q, s.graph.Leads set q ∧ s.MakesConstant k constant q := by
  obtain ⟨p, chain, q, rfl, hchain, -, hmakes, -⟩ := isConstant_of_trace h
  exact ⟨q, FrameGraph.leads_of_chain hchain, hmakes⟩

theorem trace_of_chain (h : Chain (s.graph.Hop FrameGraph.ThroughLocals) p chain q)
    (hlength : chain.length ≤ hops) (hmakes : s.MakesConstant k constant q)
    (hframe : ∃ f, s.graph.frame? q = some f) :
    s.trace k hops (.singleton p) = some constant := by
  induction h generalizing hops with
  | here p =>
    obtain ⟨hops, rfl⟩ := Nat.exists_eq_add_one.mpr hlength
    obtain ⟨f, hf⟩ := hframe
    rw [trace, IndexSet.single?_singleton]
    cases hmakes with
    | @leaf i hi hleaf =>
      have hnode := FrameGraph.node?_eq_some_iff.mpr ⟨hi, hf⟩
      have hcopy := (ConstantKind.pushes_of_leaf hleaf).1
      cases i with
      | load _ | store _ => simp [Instruction.isCopy] at hcopy
      | invoke callee =>
        rw [ConstantKind.leaf?_invoke] at hleaf
        simp at hleaf
      | _ =>
        simp only [hnode]
        exact hleaf
    | @call callee r hi hcache hr =>
      have hnode := FrameGraph.node?_eq_some_iff.mpr ⟨hi, hf⟩
      simp only [hnode, hcache, hr]
  | @hop p q r rest hnext _ ih =>
    obtain ⟨hops, rfl⟩ := Nat.exists_eq_add_one.mpr (Nat.zero_lt_of_lt hlength)
    obtain ⟨i, f, hnode, hheld, hfollows⟩ := FrameGraph.exists_of_hop hnext
    have hrest := ih (Nat.le_of_succ_le_succ hlength) hmakes hframe
    rw [trace, IndexSet.single?_singleton]
    cases i with
    | load slot =>
      have hslot : f.slot? slot = some (.singleton q) := hheld
      simp only [hnode, hslot, hrest]
    | store slot =>
      have htop : f.top? = some (.singleton q) := hheld
      simp only [hnode, htop, hrest]
    | _ => exact absurd hfollows id

/-- What is inferred is what a chain through local slots leads to. -/
theorem infer_eq_some_iff :
    s.infer k set = some constant ↔ s.IsConstant k (s.maxTraceDepth + 1) set constant := by
  constructor
  · exact isConstant_of_trace
  · rintro ⟨p, chain, q, rfl, hchain, hlength, hmakes, hframe⟩
    exact trace_of_chain hchain hlength hmakes hframe

end Scope

end CallFold
