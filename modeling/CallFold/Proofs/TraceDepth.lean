import CallFold.Proofs.Chains
import CallFold.Proofs.ConstantValues
import Mathlib

/-!
# How far traces go

A trace is cut off after a number of hops. In a method of that many instructions or fewer this makes
no difference: a chain of single producers that ends at all is no longer than the method. What would
be cut off never ends, and from such a chain nothing is ever inferred
(`Scope.depth_cuts_only_long_chains`).
-/

namespace CallFold

theorem Instruction.copiedPlace?_eq_none {i : Instruction} (h : i.isCopy = false) :
    i.copiedPlace? = none := by
  cases i <;> simp_all [isCopy, copiedPlace?]

namespace FrameGraph

variable {g : FrameGraph} {set : IndexSet} {hops hops' : Nat} {stores : List Nat}

/-- A deeper trace than the method is long finds no other allocation. -/
theorem MustComeFrom.of_length_le {a : Nat} (h : g.MustComeFrom hops set a)
    (hle : g.length ≤ hops') : g.MustComeFrom hops' set a := by
  obtain ⟨p, chain, hset, hchain, -, element, f, hnode⟩ := h
  have hlength := length_le_of_chain hchain hnode rfl
  exact ⟨p, chain, hset, hchain, by omega, element, f, hnode⟩

theorem OriginatesFrom.of_length_le {o : ArrayOrigin} (h : g.OriginatesFrom hops stores set o)
    (hle : g.length ≤ hops') : g.OriginatesFrom hops' stores set o := by
  obtain ⟨p, chain, hset, hchain, -, hnew, hstores⟩ := h
  have ⟨_, _, _, hnode, _⟩ := hnew
  exact ⟨p, chain, hset, hchain, (length_le_of_chain hchain hnode rfl).trans hle, hnew, hstores⟩

theorem mustOriginate?_eq (h : g.length ≤ hops) (h' : g.length ≤ hops') (set : IndexSet) :
    g.mustOriginate? hops set = g.mustOriginate? hops' set := by
  refine Option.ext fun a => ?_
  rw [mustOriginate?_eq_some_iff, mustOriginate?_eq_some_iff]
  exact ⟨fun hmust => hmust.of_length_le h', fun hmust => hmust.of_length_le h⟩

theorem origin?_eq (h : g.length ≤ hops) (h' : g.length ≤ hops') (set : IndexSet) :
    g.origin? hops set = g.origin? hops' set := by
  refine Option.ext fun o => ?_
  rw [origin?_eq_some_iff, origin?_eq_some_iff]
  exact ⟨fun ho => ho.of_length_le (Nat.le_succ_of_le h'),
    fun ho => ho.of_length_le (Nat.le_succ_of_le h)⟩

end FrameGraph

namespace Scope

variable {s t : Scope} {k : ConstantKind} {set : IndexSet} {site : Nat}

/-- The scope with another bound on the chains of copies. -/
def atDepth (s : Scope) (depth : Nat) : Scope := { s with maxTraceDepth := depth }

@[simp]
theorem graph_atDepth (s : Scope) (depth : Nat) : (s.atDepth depth).graph = s.graph := rfl

@[simp]
theorem maxTraceDepth_atDepth (s : Scope) (depth : Nat) :
    (s.atDepth depth).maxTraceDepth = depth := rfl

/-- Whether an array escapes is not a matter of how far chains are followed. -/
theorem escapes_atDepth (s : Scope) (depth depth' : Nat) :
    (s.atDepth depth).escapes = (s.atDepth depth').escapes := rfl

theorem MakesConstant.atDepth {constant : k.Value} {q depth depth' : Nat}
    (h : (s.atDepth depth).MakesConstant k constant q) :
    (s.atDepth depth').MakesConstant k constant q := by
  cases h with
  | leaf hi hleaf => exact .leaf hi hleaf
  | call hi hcache hr => exact .call hi hcache hr

/-- A deeper trace than the method is long finds no other constant. -/
theorem IsConstant.atDepth {constant : k.Value} {depth depth' hops hops' : Nat}
    (h : (s.atDepth depth).IsConstant k hops set constant) (hle : s.graph.length ≤ hops') :
    (s.atDepth depth').IsConstant k hops' set constant := by
  obtain ⟨p, chain, q, hset, hchain, -, hmakes, f, hf⟩ := h
  obtain ⟨i, hi, hcopy⟩ := hmakes.not_copy
  have hnode := FrameGraph.node?_eq_some_iff.mpr ⟨hi, hf⟩
  have hlength :=
    FrameGraph.length_le_of_chain hchain hnode (Instruction.copiedPlace?_eq_none hcopy)
  exact ⟨p, chain, q, hset, hchain, hlength.trans hle, hmakes.atDepth, f, hf⟩

theorem infer_atDepth {depth depth' : Nat} (h : s.graph.length ≤ depth)
    (h' : s.graph.length ≤ depth') (k : ConstantKind) (set : IndexSet) :
    (s.atDepth depth).infer k set = (s.atDepth depth').infer k set := by
  refine Option.ext fun constant => ?_
  rw [infer_eq_some_iff, infer_eq_some_iff]
  exact ⟨fun hc => hc.atDepth (Nat.le_succ_of_le h'), fun hc => hc.atDepth (Nat.le_succ_of_le h)⟩

/-! ## Arrays -/

/-- What is found of an array depends on the bound only through the three tracers. -/
theorem inferArray_atDepth_congr {depth depth' : Nat}
    (horigin : ∀ set, s.graph.origin? depth set = s.graph.origin? depth' set)
    (hmust : ∀ set, s.graph.mustOriginate? depth set = s.graph.mustOriginate? depth' set)
    (hinfer : ∀ set, (s.atDepth depth).infer k set = (s.atDepth depth').infer k set) :
    (s.atDepth depth).inferArray k set site = (s.atDepth depth').inferArray k set site := by
  have hstore : (s.atDepth depth).storeEffect k = (s.atDepth depth').storeEffect k := by
    funext o f
    unfold storeEffect
    simp only [graph_atDepth, maxTraceDepth_atDepth, hmust, hinfer]
    rfl
  have hwindow : (s.atDepth depth).windowEffect k = (s.atDepth depth').windowEffect k := by
    funext o j
    unfold windowEffect
    simp only [graph_atDepth, hstore]
    rfl
  have helements : (s.atDepth depth).elements? k = (s.atDepth depth').elements? k := by
    funext o site
    unfold elements?
    rw [hwindow]
  unfold inferArray
  simp only [graph_atDepth, maxTraceDepth_atDepth, horigin, escapes_atDepth s depth depth',
    helements]

/-! ## Chains that never end -/

/-- A chain that goes through local slots for ever leads to no constant. -/
theorem infer_of_endless {producers : Nat → Nat}
    (hendless : ∀ n, s.graph.Hop FrameGraph.ThroughLocals (producers n) (producers (n + 1))) :
    s.infer k (.singleton (producers 0)) = none := by
  refine Option.eq_none_iff_forall_ne_some.mpr fun constant hconstant => ?_
  obtain ⟨p, chain, q, hset, hchain, -, hmakes, f, hf⟩ := infer_eq_some_iff.mp hconstant
  have hp : p = producers 0 := IndexSet.mem_singleton.mp (hset ▸ IndexSet.mem_singleton.mpr rfl)
  obtain ⟨n, rfl⟩ := hchain.of_endless (fun _ _ _ => FrameGraph.hop_unique) hendless hp
  -- where it is said to end it goes on
  obtain ⟨i, hi, hcopy⟩ := hmakes.not_copy
  exact FrameGraph.not_hop (FrameGraph.node?_eq_some_iff.mpr ⟨hi, hf⟩)
    (Instruction.copiedPlace?_eq_none hcopy) (hendless n)

/--
Bounds beyond the length of a method make no difference to what is inferred, and from a chain that
goes through local slots for ever nothing is inferred under any bound.
-/
theorem depth_cuts_only_long_chains {m : MethodBody}
    (hbuild : FrameGraph.build m = .ok s.graph) :
    (∀ depth depth' k set, m.length ≤ depth → m.length ≤ depth' →
      (s.atDepth depth).infer k set = (s.atDepth depth').infer k set ∧
      ∀ site, (s.atDepth depth).inferArray k set site =
        (s.atDepth depth').inferArray k set site) ∧
    ∀ producers : Nat → Nat,
      (∀ n, s.graph.Hop FrameGraph.ThroughLocals (producers n) (producers (n + 1))) →
      ∀ depth k, (s.atDepth depth).infer k (.singleton (producers 0)) = none := by
  have hsize : s.graph.length = m.length := by
    rw [(FrameGraph.solved_of_build hbuild).size, FrameGraph.body_of_build hbuild]
  refine ⟨fun depth depth' k set h h' => ?_, fun producers hendless depth k => ?_⟩
  · rw [← hsize] at h h'
    refine ⟨infer_atDepth h h' k set, fun site => ?_⟩
    exact inferArray_atDepth_congr (FrameGraph.origin?_eq h h') (FrameGraph.mustOriginate?_eq h h')
      (infer_atDepth h h' k)
  · exact infer_of_endless hendless

/-- Stores a parameter to its own slot in a loop, and uses a text that was stored before. -/
def spin : MethodBody where
  name := "spin"
  descriptor := ⟨[.object "java/lang/String"], none⟩
  flags := .static
  maxLocals := 2
  code := #[.ldc (.text "x"), .store 1, .load 0, .store 0, .load 1, .branch .nonnull 2, .ret false]

/--
The text is found three hops away, under a bound of 64 as under one of 7. The load and the store of
the parameter are each other's single producers, and nothing is inferred from them.
-/
theorem depth_cuts_only_long_chains_spin : ∃ g, FrameGraph.build spin = .ok g ∧ spin.length = 7 ∧
    ((Machine.quietScope g .empty).atDepth 7).infer .text (.singleton 4) = some "x" ∧
    ((Machine.quietScope g .empty).atDepth 64).infer .text (.singleton 4) = some "x" ∧
    (∀ n, g.Hop FrameGraph.ThroughLocals (2 + n % 2) (2 + (n + 1) % 2)) ∧
    ((Machine.quietScope g .empty).atDepth 64).infer .text (.singleton 2) = none := by
  obtain ⟨g, hbuild, hread⟩ := FrameGraph.exists_of_build_map (m := spin)
    (show (FrameGraph.build spin).toOption.map (fun g =>
      (((Machine.quietScope g .empty).atDepth 7).infer .text (.singleton 4),
        (g.node? 2).map fun n => (n.1, n.2.slot? 0), (g.node? 3).map fun n => (n.1, n.2.top?))) =
      some (some "x", some (.load 0, some (.singleton 3)), some (.store 0, some (.singleton 2)))
      by cbv)
  obtain ⟨htext, hnodes⟩ := Prod.mk.inj hread
  obtain ⟨hload, hstore⟩ := Prod.mk.inj hnodes
  obtain ⟨⟨i, f⟩, hnode, hslot⟩ := Option.map_eq_some_iff.mp hload
  obtain ⟨⟨i', f'⟩, hnode', htop⟩ := Option.map_eq_some_iff.mp hstore
  obtain ⟨rfl, hslot⟩ := Prod.mk.inj hslot
  obtain ⟨rfl, htop⟩ := Prod.mk.inj htop
  have hendless : ∀ n, g.Hop FrameGraph.ThroughLocals (2 + n % 2) (2 + (n + 1) % 2) := by
    intro n
    rcases Nat.mod_two_eq_zero_or_one n with hn | hn
    · rw [Nat.add_mod, hn]
      exact ⟨_, f, _, hnode, rfl, hslot, trivial⟩
    · rw [Nat.add_mod, hn]
      exact ⟨_, f', _, hnode', rfl, htop, trivial⟩
  obtain ⟨hdeep, hspin⟩ := depth_cuts_only_long_chains (s := Machine.quietScope g .empty) hbuild
  have hsame := (hdeep 7 64 .text (.singleton 4) (by decide) (by decide)).1
  exact ⟨g, hbuild, rfl, htext, hsame ▸ htext, hendless,
    hspin (fun n => 2 + n % 2) hendless 64 .text⟩

end Scope

end CallFold
