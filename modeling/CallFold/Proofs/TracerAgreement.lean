import CallFold.Proofs.Escapes
import Mathlib

/-!
# The tracers agree

Three tracers lead from a reference to allocations. `FrameGraph.origin?` and
`FrameGraph.mustOriginate?` follow chains of single producers, the first through fewer instructions
than the second, and `FrameGraph.mayAlias` searches along all copies. They never contradict each
other (`FrameGraph.tracers_agree`): what the first one follows, the second follows too, and once the
second has come to an allocation, no path of copies leaves its chain.
-/

namespace CallFold

theorem Chain.imp {next next' : Nat → Nat → Prop} {p r : Nat} {chain : List Nat}
    (h : Chain next p chain r) (himp : ∀ p q, next p q → next' p q) : Chain next' p chain r := by
  induction h with
  | here p => exact .here p
  | hop hnext _ ih => exact .hop (himp _ _ hnext) ih

/-- An instruction that hands on a single value has no other to hand on. -/
theorem Instruction.copiedPlaces_eq {i : Instruction} {place : Place}
    (h : i.copiedPlace? = some place) : i.copiedPlaces = [place] := by
  cases i <;> simp_all [copiedPlace?, copiedPlaces]

namespace FrameGraph

variable {g : FrameGraph} {follows : Instruction → Nat → Prop} {p q r a b depth : Nat}
  {chain stores : List Nat} {set : IndexSet}

/-! ## Chains among paths -/

theorem copyEdge_of_hop (h : g.Hop follows p q) : g.CopyEdge p q := by
  obtain ⟨i, f, place, hnode, hplace, hget, -⟩ := h
  refine ⟨i, f, place, .singleton q, hnode, ?_, hget, IndexSet.mem_singleton.mpr rfl⟩
  rw [Instruction.copiedPlaces_eq hplace]
  exact List.mem_singleton.mpr rfl

/-- Where a chain goes on, there is no other way to go. -/
theorem eq_of_copyEdge (h : g.Hop follows p q) (hedge : g.CopyEdge p r) : r = q := by
  obtain ⟨i, f, place, hnode, hplace, hget, -⟩ := h
  obtain ⟨i', f', place', set, hnode', hplace', hget', hr⟩ := hedge
  obtain ⟨rfl, rfl⟩ := Prod.mk.inj (Option.some.inj (hnode.symm.trans hnode'))
  rw [Instruction.copiedPlaces_eq hplace, List.mem_singleton] at hplace'
  subst hplace'
  obtain rfl := Option.some.inj (hget.symm.trans hget')
  exact IndexSet.mem_singleton.mp hr

theorem not_copyEdge_of_newArray {element : Descriptor} {f : Frame}
    (h : g.node? a = some (.newArray element, f)) : ¬ g.CopyEdge a q := by
  rintro ⟨i, f', place, set, hnode, hplace, -⟩
  obtain ⟨rfl, rfl⟩ := Prod.mk.inj (Option.some.inj (h.symm.trans hnode))
  simp [Instruction.copiedPlaces] at hplace

theorem path_of_chain (h : Chain (g.Hop follows) p chain a) :
    Relation.ReflTransGen g.CopyEdge p a := by
  induction h with
  | here p => exact .refl
  | hop hnext _ ih => exact .head (copyEdge_of_hop hnext) ih

/-- A path of copies does not leave a chain that ends where nothing is copied. -/
theorem mem_chain_of_path (h : Chain (g.Hop follows) p chain a)
    (hend : ∀ q, ¬ g.CopyEdge a q) (hpath : Relation.ReflTransGen g.CopyEdge p b) : b ∈ chain := by
  induction h with
  | here p =>
    rcases Relation.ReflTransGen.cases_head hpath with rfl | ⟨q, hedge, -⟩
    · exact List.mem_singleton.mpr rfl
    · exact absurd hedge (hend q)
  | @hop p q a rest hnext _ ih =>
    rcases Relation.ReflTransGen.cases_head hpath with rfl | ⟨q', hedge, hrest⟩
    · exact List.mem_cons_self
    · obtain rfl := eq_of_copyEdge hnext hedge
      exact List.mem_cons_of_mem _ (ih hend hrest)

/-- On the way of a chain there are only copies, so an allocation can only be its end. -/
theorem eq_end_of_newArray {element : Descriptor} (h : Chain (g.Hop follows) p chain a)
    (hmem : b ∈ chain) (hb : g.instruction? b = some (.newArray element)) : b = a := by
  obtain ⟨before, after, rfl, hafter⟩ := h.of_mem hmem
  cases hafter with
  | here => rfl
  | hop hnext _ =>
    obtain ⟨i, f, place, hnode, hplace, -⟩ := hnext
    obtain rfl := Option.some.inj ((node?_eq_some_iff.mp hnode).1.symm.trans hb)
    simp [Instruction.copiedPlace?] at hplace

/-! ## Agreement -/

/-- A reference that is known to be an array must come from the allocation of the array. -/
theorem OriginatesFrom.mustComeFrom {o : ArrayOrigin}
    (h : g.OriginatesFrom (depth + 1) stores set o) : g.MustComeFrom depth set o.allocation := by
  obtain ⟨p, chain, hset, hchain, hlength, ⟨element, f, size, hnode, -⟩, -⟩ := h
  refine ⟨p, chain, hset, hchain.imp ?_, hlength, element, f, hnode⟩
  rintro p q ⟨i, f, place, hnode, hplace, hget, -⟩
  exact ⟨i, f, place, hnode, hplace, hget, trivial⟩

/-- A reference that must come from one allocation may not come from another. -/
theorem MustComeFrom.mayComeFrom_iff {element : Descriptor} (h : g.MustComeFrom depth set a)
    (hb : g.instruction? b = some (.newArray element)) : g.MayComeFrom set b ↔ b = a := by
  obtain ⟨p, chain, rfl, hchain, -, element', f, hnode⟩ := h
  constructor
  · rintro ⟨p', hp', hpath⟩
    obtain rfl := IndexSet.mem_singleton.mp hp'
    have hmem := mem_chain_of_path hchain (fun _ => not_copyEdge_of_newArray hnode) hpath
    exact eq_end_of_newArray hchain hmem hb
  · rintro rfl
    exact ⟨p, IndexSet.mem_singleton.mpr rfl, path_of_chain hchain⟩

/--
An array that is found as the origin of a reference is what the reference must be, within the same
bound, and what a reference must be is the one allocation that it may be.
-/
theorem tracers_agree {m : MethodBody} (h : build m = .ok g) (depth : Nat) (set : IndexSet) :
    (∀ o, g.origin? depth set = some o → g.mustOriginate? depth set = some o.allocation) ∧
    ∀ a, g.mustOriginate? depth set = some a →
      ∀ b element, g.instruction? b = some (.newArray element) →
        (g.mayAlias set b = true ↔ b = a) := by
  constructor
  · intro o ho
    exact mustOriginate?_eq_some_iff.mpr (origin?_eq_some_iff.mp ho).mustComeFrom
  · intro a ha b element hb
    have hlt : b < g.length := by
      rw [(solved_of_build h).size]
      exact (Array.getElem?_eq_some_iff.mp hb).1
    rw [mayAlias_iff hlt]
    exact (mustOriginate?_eq_some_iff.mp ha).mayComeFrom_iff hb

/-- An array that is stored, loaded and duplicated before another one is made. -/
def handAround : MethodBody where
  name := "handAround"
  descriptor := ⟨[], none⟩
  flags := .static
  maxLocals := 1
  code := #[.intConst 2, .newArray (.object "java/lang/String"), .store 0, .load 0, .dup,
    .arrayLength, .newArray (.object "java/lang/String"), .pop, .pop, .ret false]

theorem tracers_agree_handAround : ∃ g, build handAround = .ok g ∧
    g.origin? 3 (.singleton 4) = some ⟨1, 2, [2]⟩ ∧ g.mustOriginate? 3 (.singleton 4) = some 1 ∧
    g.mayAlias (.singleton 4) 1 = true ∧ g.mayAlias (.singleton 4) 6 = false := by
  obtain ⟨g, hbuild, hread⟩ := exists_of_build_map (m := handAround)
    (show (build handAround).toOption.map
      (fun g => (g.origin? 3 (.singleton 4), g.instruction? 1, g.instruction? 6)) =
        some (some ⟨1, 2, [2]⟩, some (.newArray (.object "java/lang/String")),
          some (.newArray (.object "java/lang/String"))) by cbv)
  obtain ⟨horigin, hfirst, hsecond⟩ :
      g.origin? 3 (.singleton 4) = some ⟨1, 2, [2]⟩ ∧
        g.instruction? 1 = some (.newArray (.object "java/lang/String")) ∧
        g.instruction? 6 = some (.newArray (.object "java/lang/String")) := by
    simpa using hread
  obtain ⟨hmust, hmay⟩ := tracers_agree hbuild 3 (.singleton 4)
  refine ⟨g, hbuild, horigin, hmust _ horigin, ?_, ?_⟩
  · exact (hmay 1 (hmust _ horigin) 1 _ hfirst).mpr rfl
  · rw [← Bool.not_eq_true, hmay 1 (hmust _ horigin) 6 _ hsecond]
    decide

end FrameGraph

end CallFold
