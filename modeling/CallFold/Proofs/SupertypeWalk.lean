import CallFold.Proofs.RecursiveSearch
import Mathlib

/-!
# The supertypes that a walk finds

The walk over the hierarchy as a machine: names of interfaces that are still to come, taken from the
top, and the next class of the superclass chain, taken when there are none (`Walk.next?`). Every
step is paid for by a name that some class lists or by a class that is visited for the first time,
so a walk is no longer than the hierarchy is large, cyclic or not (`Walk.cost`).

What the walk finds is the classes on the superclass chain and those reached from them through
interfaces (`HasSupertype`). That nothing else is found is one invariant: every name that is visited
or still to come is the name of a supertype (`Walk.Grounded`). That all of them are found is another
one: the interfaces of a visited class are visited or still to come, and so is the superclass of a
visited class of the chain (`Walk.Complete`). The walk breaks off at a superclass that it has seen.
If interfaces are apart from the chain, such a class was seen as a superclass, and nothing is lost.

* `ancestors_enumerates_supertypes`: the walk ends, and what it finds.
-/

namespace CallFold.Universe

variable {u : Universe}

/-! ## Names that need no visit -/

/-- The class of a name, if it is known, has been visited. -/
def Covers (u : Universe) (order : List ClassInfo) (name : String) : Prop :=
  ∀ c, u.class? name = some c → visited order c.name = true

theorem visited_append_self (order : List ClassInfo) (c : ClassInfo) :
    visited (order ++ [c]) c.name = true :=
  visited_eq_true_iff.mpr ⟨c, List.mem_append_right _ (List.mem_singleton_self c), rfl⟩

theorem Covers.append {order : List ClassInfo} {name : String} (h : u.Covers order name)
    (more : List ClassInfo) : u.Covers (order ++ more) name := by
  intro c hc
  rw [visited_append, h c hc]
  rfl

theorem covers_of_unknown {order : List ClassInfo} {name : String} (hc : u.class? name = none) :
    u.Covers order name := by
  intro c hc'
  rw [hc] at hc'
  cases hc'

theorem covers_of_visited {order : List ClassInfo} {name : String} {c : ClassInfo}
    (hc : u.class? name = some c) (hv : visited order c.name = true) : u.Covers order name := by
  intro c' hc'
  obtain rfl : c = c' := Option.some.inj (hc.symm.trans hc')
  exact hv

/-- A covered name is passed over among the interfaces. -/
theorem Covers.visitInterfaces {order : List ClassInfo} {name : String}
    (h : u.Covers order name) (rest : List String) :
    u.visitInterfaces order (name :: rest) = u.visitInterfaces order rest := by
  cases hc : u.class? name with
  | none => exact visitInterfaces_unknown hc
  | some c => exact visitInterfaces_seen hc (h c hc)

/-- A covered name ends the walk up the superclass chain. -/
theorem Covers.climb {order : List ClassInfo} {name : String} (h : u.Covers order name) :
    u.climb order (some name) = order := by
  cases hc : u.class? name with
  | none => exact climb_unknown hc
  | some c => exact climb_seen hc (h c hc)

/-! ## The walk as a machine -/

/-- What was visited, the interfaces still to come, and the next class of the superclass chain. -/
structure Walk where
  order : List ClassInfo
  pending : List String
  current : Option String

namespace Walk

/-- A walk that has the class of a name ahead. -/
def start (name : String) : Walk := ⟨[], [], some name⟩

/-- One step: an interface is taken up or passed over, or the next superclass is taken up. -/
def next? (u : Universe) (w : Walk) : Option Walk :=
  match w.pending with
  | name :: rest =>
    match u.class? name with
    | none => some { w with pending := rest }
    | some c =>
      if visited w.order c.name then some { w with pending := rest }
      else some ⟨w.order ++ [c], c.interfaces ++ rest, w.current⟩
  | [] =>
    match w.current.bind u.class? with
    | none => none
    | some c =>
      if visited w.order c.name then none
      else some ⟨w.order ++ [c], c.interfaces, c.superclass⟩

/-- A number of steps, one after the other. -/
inductive Steps (u : Universe) : Nat → Walk → Walk → Prop where
  | nil (w : Walk) : Steps u 0 w w
  | cons {n : Nat} {w w₁ w' : Walk} (h : w.next? u = some w₁) (hrest : Steps u n w₁ w') :
      Steps u (n + 1) w w'

/-- The ways in which a walk can go on. -/
inductive Moves (u : Universe) : Walk → Walk → Prop where
  | skip {order : List ClassInfo} {name : String} {rest : List String} {current : Option String}
      (hcovers : u.Covers order name) :
      Moves u ⟨order, name :: rest, current⟩ ⟨order, rest, current⟩
  | interface {order : List ClassInfo} {name : String} {rest : List String}
      {current : Option String} {c : ClassInfo} (hc : u.class? name = some c)
      (hv : ¬ visited order c.name = true) :
      Moves u ⟨order, name :: rest, current⟩ ⟨order ++ [c], c.interfaces ++ rest, current⟩
  | superclass {order : List ClassInfo} {name : String} {c : ClassInfo}
      (hc : u.class? name = some c) (hv : ¬ visited order c.name = true) :
      Moves u ⟨order, [], some name⟩ ⟨order ++ [c], c.interfaces, c.superclass⟩

theorem moves_of_next? {w w' : Walk} (h : w.next? u = some w') : Moves u w w' := by
  obtain ⟨order, pending, current⟩ := w
  unfold next? at h
  split at h
  · next name rest hpending =>
    obtain rfl : pending = name :: rest := hpending
    split at h
    · next hc =>
      rw [← Option.some.inj h]
      exact .skip (covers_of_unknown hc)
    · next c hc =>
      split at h
      · next hv =>
        rw [← Option.some.inj h]
        exact .skip (covers_of_visited hc hv)
      · next hv =>
        rw [← Option.some.inj h]
        exact .interface hc hv
  · next hpending =>
    obtain rfl : pending = [] := hpending
    split at h
    · simp at h
    · next c hc =>
      obtain ⟨name, hname, hc⟩ := Option.bind_eq_some_iff.mp hc
      obtain rfl : current = some name := hname
      split at h
      · simp at h
      · next hv =>
        rw [← Option.some.inj h]
        exact .superclass hc hv

/-! ## The result -/

/-- What a walk will have visited in the end. -/
def result (u : Universe) (w : Walk) : List ClassInfo :=
  u.climb (u.visitInterfaces w.order w.pending) w.current

theorem result_start (u : Universe) (name : String) : (start name).result u = u.ancestors name := by
  unfold result start ancestors
  rw [visitInterfaces_nil]

/-- A step does not change what is visited in the end. -/
theorem Moves.result {w w' : Walk} (h : Moves u w w') : w'.result u = w.result u := by
  cases h with
  | skip hcovers =>
    unfold Walk.result
    rw [hcovers.visitInterfaces]
  | interface hc hv =>
    unfold Walk.result
    rw [visitInterfaces_new hc hv]
  | superclass hc hv =>
    unfold Walk.result
    rw [visitInterfaces_nil, climb_new hc hv]

/-- Where the walk stops, no interface is to come, and the next superclass is nothing new. -/
theorem stopped_of_next? {w : Walk} (h : w.next? u = none) :
    w.pending = [] ∧ ∀ name ∈ w.current, u.Covers w.order name := by
  unfold next? at h
  split at h
  · split at h
    · simp at h
    · split at h <;> simp at h
  · next hpending =>
    refine ⟨hpending, fun name hname c hc => ?_⟩
    have hbind : w.current.bind u.class? = some c := Option.bind_eq_some_iff.mpr ⟨name, hname, hc⟩
    rw [hbind] at h
    simpa using h

theorem result_of_stopped {w : Walk} (hpending : w.pending = [])
    (hcurrent : ∀ name ∈ w.current, u.Covers w.order name) : w.result u = w.order := by
  unfold result
  rw [hpending, visitInterfaces_nil]
  cases hname : w.current with
  | none => exact climb_none u w.order
  | some name => exact (hcurrent name hname).climb

/-! ## The cost -/

/-- A class that was not visited costs its visit, and one step for each interface that it lists. -/
def toll (order : List ClassInfo) (c : ClassInfo) : Nat :=
  if visited order c.name then 0 else c.interfaces.length + 1

/-- The steps that are still to be paid for. -/
def cost (u : Universe) (w : Walk) : Nat :=
  totalWeight (toll w.order) u.classes + w.pending.length

theorem toll_append_le (order : List ClassInfo) (c b : ClassInfo) :
    toll (order ++ [c]) b ≤ toll order b := by
  unfold toll
  rw [visited_append]
  cases visited order b.name with
  | true => simp
  | false =>
    simp only [Bool.false_or, Bool.false_eq_true, if_false]
    split
    · exact Nat.zero_le _
    · exact Nat.le_refl _

/-- The first visit to a class pays for itself and for the interfaces that the class lists. -/
theorem totalWeight_toll_append {order : List ClassInfo} {name : String} {c : ClassInfo}
    (hc : u.class? name = some c) (hv : ¬ visited order c.name = true) :
    totalWeight (toll (order ++ [c])) u.classes + (c.interfaces.length + 1) ≤
      totalWeight (toll order) u.classes := by
  refine totalWeight_add_le (mem_of_class? hc) ?_ fun b _ => toll_append_le order c b
  unfold toll
  rw [if_pos (visited_append_self order c), if_neg hv, Nat.zero_add]

theorem Moves.cost_lt {w w' : Walk} (h : Moves u w w') : w'.cost u < w.cost u := by
  cases h with
  | skip hcovers => simp [cost]
  | interface hc hv =>
    have htoll := totalWeight_toll_append hc hv
    simp only [cost, List.length_append, List.length_cons]
    omega
  | superclass hc hv =>
    have htoll := totalWeight_toll_append hc hv
    simp only [cost, List.length_nil]
    omega

/-- Every walk stops, after no more steps than it has to pay for. -/
theorem exists_steps (u : Universe) (w : Walk) :
    ∃ n w', n ≤ w.cost u ∧ Steps u n w w' ∧ w'.next? u = none ∧ w'.order = w.result u := by
  -- The induction is on the cost, of which every step takes something.
  induction hcost : w.cost u using Nat.strong_induction_on generalizing w with
  | _ k ih =>
    subst hcost
    cases hnext : w.next? u with
    | none =>
      obtain ⟨hpending, hcurrent⟩ := stopped_of_next? hnext
      exact ⟨0, w, Nat.zero_le _, .nil w, hnext, (result_of_stopped hpending hcurrent).symm⟩
    | some w₁ =>
      have hmoves := moves_of_next? hnext
      obtain ⟨n, w', hn, hsteps, hstop, horder⟩ := ih _ hmoves.cost_lt w₁ rfl
      refine ⟨n + 1, w', ?_, .cons hnext hsteps, hstop, horder.trans hmoves.result⟩
      have := hmoves.cost_lt
      omega

end Walk

/-- As many steps as a hierarchy can ask for: each class once, and each interface that one lists. -/
def stepBound (u : Universe) : Nat := totalWeight (fun c => c.interfaces.length + 1) u.classes

theorem cost_start (u : Universe) (name : String) : (Walk.start name).cost u = u.stepBound := rfl

/-! ## What the walk finds -/

/--
A known class lies on the superclass chain of a name, or is reached from this chain through
interfaces.
-/
def HasSupertype (u : Universe) (start : String) (c : ClassInfo) : Prop :=
  u.class? c.name = some c ∧
    ∃ base, u.OnChain start base ∧ Relation.ReflTransGen u.Implements base c.name

namespace Walk

/-- What holds along every run if it holds at the start and each move keeps it. -/
theorem Steps.keeps {P : Walk → Prop} (hstep : ∀ w w', Moves u w w' → P w → P w') {n : Nat}
    {w w' : Walk} (h : Steps u n w w') (hw : P w) : P w' := by
  induction h with
  | nil w => exact hw
  | cons hnext _ ih => exact ih (hstep _ _ (moves_of_next? hnext) hw)

/-- Nothing but supertypes has been visited, and nothing else is to come. -/
structure Grounded (u : Universe) (start : String) (w : Walk) : Prop where
  order : ∀ x ∈ w.order, u.HasSupertype start x
  pending : ∀ i ∈ w.pending, ∃ base, u.OnChain start base ∧ u.ThroughInterfaces base i
  current : ∀ name ∈ w.current, u.OnChain start name

theorem grounded_start (u : Universe) (name : String) : Grounded u name (start name) where
  order := fun x hx => absurd hx List.not_mem_nil
  pending := fun i hi => absurd hi List.not_mem_nil
  current := by
    intro n hn
    rw [← Option.some.inj hn]
    exact .refl

theorem Grounded.move {start : String} {w w' : Walk} (hmoves : Moves u w w')
    (h : Grounded u start w) : Grounded u start w' := by
  cases hmoves with
  | skip hcovers =>
    exact ⟨h.order, fun i hi => h.pending i (List.mem_cons_of_mem _ hi), h.current⟩
  | @interface order name rest current c hc hv =>
    obtain rfl : c.name = name := name_of_class? hc
    obtain ⟨base, hbase, hthrough⟩ := h.pending c.name List.mem_cons_self
    refine ⟨fun x hx => ?_, fun i hi => ?_, h.current⟩
    · rcases List.mem_append.mp hx with hx | hx
      · exact h.order x hx
      · obtain rfl := List.mem_singleton.mp hx
        exact ⟨hc, base, hbase, hthrough.to_reflTransGen⟩
    · rcases List.mem_append.mp hi with hi | hi
      · exact ⟨base, hbase, hthrough.tail ⟨c, hc, hi⟩⟩
      · exact h.pending i (List.mem_cons_of_mem _ hi)
  | @superclass order name c hc hv =>
    obtain rfl : c.name = name := name_of_class? hc
    have hchain : u.OnChain start c.name := h.current c.name rfl
    refine ⟨fun x hx => ?_, fun i hi => ?_, fun super hs => ?_⟩
    · rcases List.mem_append.mp hx with hx | hx
      · exact h.order x hx
      · obtain rfl := List.mem_singleton.mp hx
        exact ⟨hc, x.name, hchain, .refl⟩
    · exact ⟨c.name, hchain, .single ⟨c, hc, hi⟩⟩
    · exact hchain.tail ⟨c, hc, hs⟩

/--
Whatever the visited classes lead to has been visited or is to come: the start, the interfaces of
every visited class, and the superclass of those that lie on the chain.
-/
structure Complete (u : Universe) (start : String) (w : Walk) : Prop where
  first : u.Covers w.order start ∨ w.current = some start
  interfaces : ∀ x ∈ w.order, ∀ i ∈ x.interfaces, u.Covers w.order i ∨ i ∈ w.pending
  superclass : ∀ x ∈ w.order, u.OnChain start x.name → ∀ super ∈ x.superclass,
    u.Covers w.order super ∨ w.current = some super

theorem complete_start (u : Universe) (name : String) : Complete u name (start name) where
  first := Or.inr rfl
  interfaces := fun _ hx => absurd hx List.not_mem_nil
  superclass := fun _ hx => absurd hx List.not_mem_nil

theorem Complete.move {start : String} (hapart : u.InterfacesApart start) {w w' : Walk}
    (hmoves : Moves u w w') (hw : Grounded u start w) (h : Complete u start w) :
    Complete u start w' := by
  cases hmoves with
  | @skip order name rest current hskip =>
    refine ⟨h.first, fun x hx i hi => ?_, h.superclass⟩
    rcases h.interfaces x hx i hi with hcovers | hpending
    · exact Or.inl hcovers
    · rcases List.mem_cons.mp hpending with rfl | hpending
      · exact Or.inl hskip
      · exact Or.inr hpending
  | @interface order name rest current c hc hv =>
    have hnew : u.Covers (order ++ [c]) name := covers_of_visited hc (visited_append_self order c)
    refine ⟨h.first.imp_left (·.append [c]), fun x hx i hi => ?_, fun x hx hchain super hs => ?_⟩
    · rcases List.mem_append.mp hx with hx | hx
      · rcases h.interfaces x hx i hi with hcovers | hpending
        · exact Or.inl (hcovers.append [c])
        · rcases List.mem_cons.mp hpending with rfl | hpending
          · exact Or.inl hnew
          · exact Or.inr (List.mem_append_right _ hpending)
      · obtain rfl := List.mem_singleton.mp hx
        exact Or.inr (List.mem_append_left _ hi)
    · rcases List.mem_append.mp hx with hx | hx
      · exact (h.superclass x hx hchain super hs).imp_left (·.append [c])
      · -- Reached through an interface list, it does not lie on the chain.
        obtain rfl := List.mem_singleton.mp hx
        obtain rfl : x.name = name := name_of_class? hc
        obtain ⟨base, hbase, hthrough⟩ := hw.pending x.name List.mem_cons_self
        exact absurd hchain (hapart base x hbase hthrough hc)
  | @superclass order name c hc hv =>
    have hnew : u.Covers (order ++ [c]) name := covers_of_visited hc (visited_append_self order c)
    refine ⟨?_, fun x hx i hi => ?_, fun x hx hchain super hs => ?_⟩
    · rcases h.first with hcovers | hcurrent
      · exact Or.inl (hcovers.append [c])
      · -- What was the next class has just been visited.
        rw [← Option.some.inj hcurrent]
        exact Or.inl hnew
    · rcases List.mem_append.mp hx with hx | hx
      · rcases h.interfaces x hx i hi with hcovers | hpending
        · exact Or.inl (hcovers.append [c])
        · exact absurd hpending List.not_mem_nil
      · obtain rfl := List.mem_singleton.mp hx
        exact Or.inr hi
    · rcases List.mem_append.mp hx with hx | hx
      · rcases h.superclass x hx hchain super hs with hcovers | hcurrent
        · exact Or.inl (hcovers.append [c])
        · rw [← Option.some.inj hcurrent]
          exact Or.inl hnew
      · obtain rfl := List.mem_singleton.mp hx
        exact Or.inr hs

theorem Grounded.mem_of_covers {start name : String} {w : Walk} {c : ClassInfo}
    (h : Grounded u start w) (hcovers : u.Covers w.order name) (hc : u.class? name = some c) :
    c ∈ w.order := by
  obtain ⟨x, hx, hname⟩ := visited_eq_true_iff.mp (hcovers c hc)
  have hxc : u.class? c.name = some x := hname ▸ (h.order x hx).1
  rw [name_of_class? hc, hc] at hxc
  rw [Option.some.inj hxc]
  exact hx

section Stopped

variable {start : String} {w : Walk}

/-- Where the walk stops, the whole superclass chain has been visited. -/
theorem Complete.covers_chain (h : Complete u start w) (hw : Grounded u start w)
    (hstop : w.next? u = none) {base : String} (hbase : u.OnChain start base) :
    u.Covers w.order base := by
  obtain ⟨-, hcurrent⟩ := stopped_of_next? hstop
  induction hbase with
  | refl => exact h.first.elim id (hcurrent start)
  | tail hchain hinherits ih =>
    obtain ⟨x, hx, hsuper⟩ := hinherits
    have hname := name_of_class? hx
    refine (h.superclass x (hw.mem_of_covers ih hx) ?_ _ hsuper).elim id (hcurrent _)
    rw [hname]
    exact hchain

/-- Where the walk stops, so has been what is reached from the chain through interfaces. -/
theorem Complete.covers_reached (h : Complete u start w) (hw : Grounded u start w)
    (hstop : w.next? u = none) {base name : String} (hbase : u.OnChain start base)
    (hreach : Relation.ReflTransGen u.Implements base name) : u.Covers w.order name := by
  obtain ⟨hpending, -⟩ := stopped_of_next? hstop
  induction hreach with
  | refl => exact h.covers_chain hw hstop hbase
  | tail _ himplements ih =>
    obtain ⟨x, hx, hi⟩ := himplements
    refine (h.interfaces x (hw.mem_of_covers ih hx) _ hi).resolve_right fun hmem => ?_
    rw [hpending] at hmem
    exact absurd hmem List.not_mem_nil

theorem Complete.mem_of_hasSupertype (h : Complete u start w) (hw : Grounded u start w)
    (hstop : w.next? u = none) {c : ClassInfo} (hc : u.HasSupertype start c) : c ∈ w.order := by
  obtain ⟨hknown, base, hbase, hreach⟩ := hc
  exact hw.mem_of_covers (h.covers_reached hw hstop hbase hreach) hknown

end Stopped

end Walk

/-- The walk starts with the class that was asked for. -/
theorem head?_ancestors (u : Universe) (start : String) :
    (u.ancestors start).head? = u.class? start := by
  unfold ancestors
  cases hc : u.class? start with
  | none =>
    rw [climb_unknown hc]
    rfl
  | some c =>
    have hnew : ¬ visited [] c.name = true := Bool.false_ne_true
    obtain ⟨more, hmore⟩ := u.visitInterfaces_eq_append [c] c.interfaces
    obtain ⟨later, hlater⟩ := u.climb_eq_append ([c] ++ more) c.superclass
    rw [climb_new hc hnew, List.nil_append, hmore, hlater]
    rfl

/--
The walk up from a name ends on every hierarchy, after no more steps than `stepBound`. It finds
known classes without duplicates, first of all that of the name, and nothing but supertypes. If no
class that is reached through interfaces lies on the superclass chain, it finds them all.
-/
theorem ancestors_enumerates_supertypes (u : Universe) (start : String) :
    (∃ n w, n ≤ u.stepBound ∧ Walk.Steps u n (.start start) w ∧ w.next? u = none ∧
      w.order = u.ancestors start) ∧
    (u.ancestors start).head? = u.class? start ∧
    ((u.ancestors start).map ClassInfo.name).Nodup ∧
    (∀ c ∈ u.ancestors start, u.HasSupertype start c) ∧
    (u.InterfacesApart start → ∀ c, c ∈ u.ancestors start ↔ u.HasSupertype start c) := by
  obtain ⟨n, w, hn, hsteps, hstop, horder⟩ := Walk.exists_steps u (.start start)
  rw [cost_start] at hn
  rw [Walk.result_start] at horder
  have hgrounded : w.Grounded u start :=
    hsteps.keeps (fun _ _ => Walk.Grounded.move) (Walk.grounded_start u start)
  have hsound : ∀ c ∈ u.ancestors start, u.HasSupertype start c := horder ▸ hgrounded.order
  refine ⟨⟨n, w, hn, hsteps, hstop, horder⟩, u.head?_ancestors start,
    (u.explores_ancestors start).nodup_names, hsound, fun hapart c => ⟨hsound c, fun hc => ?_⟩⟩
  have hcomplete : w.Grounded u start ∧ w.Complete u start := by
    refine hsteps.keeps (P := fun w => w.Grounded u start ∧ w.Complete u start) ?_
      ⟨Walk.grounded_start u start, Walk.complete_start u start⟩
    rintro w w' hmoves ⟨hw, h⟩
    exact ⟨hw.move hmoves, h.move hapart hmoves hw⟩
  rw [← horder]
  exact hcomplete.2.mem_of_hasSupertype hgrounded hstop hc

/-- A superclass that was seen as an interface ends the walk before its own superclass. -/
example :
    ((ofList [fieldClass "app.Child" (some "app.Base") ["app.Base"] [],
      fieldClass "app.Base" (some "app.Top") [] [],
      fieldClass "app.Top" none [] []]).ancestors "app.Child").map ClassInfo.name =
      ["app.Child", "app.Base"] := by cbv

/-- It is enough that no interface is a superclass or the start, whether or not there are cycles. -/
theorem interfacesApart_of_unlisted {start : String}
    (hstart : ∀ c ∈ u.classes, start ∉ c.interfaces)
    (h : ∀ c ∈ u.classes, ∀ d ∈ u.classes, ∀ name ∈ c.interfaces, d.superclass ≠ some name) :
    u.InterfacesApart start := by
  intro base x _ hthrough _ hchain
  obtain ⟨_, -, c, hc, hlisted⟩ := Relation.TransGen.tail'_iff.mp hthrough
  rcases Relation.ReflTransGen.cases_tail hchain with heq | ⟨_, _, d, hd, hsuper⟩
  · rw [heq] at hlisted
    exact hstart c (mem_of_class? hc) hlisted
  · exact h c (mem_of_class? hc) d (mem_of_class? hd) x.name hlisted hsuper

/-- Two classes that extend each other, and two interfaces that list each other. -/
def tangled : Universe :=
  ofList [fieldClass "app.Odd" (some "app.Even") ["app.Ring", "app.Gone"] [],
    fieldClass "app.Even" (some "app.Odd") ["app.Knot"] [],
    fieldClass "app.Ring" none ["app.Knot", "app.Ring"] [],
    fieldClass "app.Knot" none ["app.Ring"] []]

/-- Cycles end the walk, and nothing is left out. -/
theorem ancestors_enumerates_supertypes_tangled :
    tangled.InterfacesApart "app.Odd" ∧
      (∀ c, c ∈ tangled.ancestors "app.Odd" ↔ tangled.HasSupertype "app.Odd" c) ∧
      (tangled.ancestors "app.Odd").map ClassInfo.name =
        ["app.Odd", "app.Ring", "app.Knot", "app.Even"] := by
  have hapart : tangled.InterfacesApart "app.Odd" :=
    interfacesApart_of_unlisted (by decide) (by decide)
  obtain ⟨-, -, -, -, hcomplete⟩ := tangled.ancestors_enumerates_supertypes "app.Odd"
  exact ⟨hapart, hcomplete hapart, by cbv⟩

end CallFold.Universe
