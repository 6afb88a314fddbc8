import CallFold.Proofs.Hierarchy
import CallFold.Universe.Lookup
import Mathlib

/-!
# The recursive search for a member

Members are looked up along one list, which a walk over the hierarchy makes: it keeps a stack of
names that are still to come and visits no class twice. The meaning of such a look-up is simpler. It
asks the class itself, then each of its interfaces with all that they extend, then its superclass in
the same way; what was visited before plays no part.

On an acyclic hierarchy the recursion ends, since fewer known classes lie above a supertype
(`rank_lt`), and the two agree, whatever is looked for (`findSome?_ancestors`). The reason is that
the walk comes back to an interface only after it has been through everything above it, so that a
class that is passed over has nothing to offer (`Settles`). The superclass chain is another matter:
a superclass that was visited as an interface ends the walk, and its own superclass is not reached.
Hence the condition that the two kinds of supertypes are apart (`InterfacesApart`).

* `lookupField_eq_searchAbove`: a look-up of a public field is the recursive search for it.
-/

namespace CallFold.Universe

variable {α : Type} {u : Universe}

/-! ## Superclasses and interfaces -/

/-- A name stands for a known class of which the other is the superclass. -/
def Inherits (u : Universe) (name super : String) : Prop :=
  ∃ c, u.class? name = some c ∧ c.superclass = some super

/-- A name stands for a known class that lists the other among its interfaces. -/
def Implements (u : Universe) (name interface : String) : Prop :=
  ∃ c, u.class? name = some c ∧ interface ∈ c.interfaces

/-- The second name is on the superclass chain of the first, which starts it. -/
def OnChain (u : Universe) : String → String → Prop := Relation.ReflTransGen u.Inherits

/-- The second name is reached from the first through one or more interface lists. -/
def ThroughInterfaces (u : Universe) : String → String → Prop := Relation.TransGen u.Implements

/--
No known class that is reached through an interface list of the superclass chain of a name lies on
this chain itself.
-/
def InterfacesApart (u : Universe) (start : String) : Prop :=
  ∀ base c, u.OnChain start base → u.ThroughInterfaces base c.name → u.class? c.name = some c →
    ¬ u.OnChain start c.name

theorem Inherits.extends {name super : String} (h : u.Inherits name super) :
    u.Extends name super := by
  obtain ⟨c, hc, hs⟩ := h
  exact ⟨c, hc, List.mem_append_right _ (Option.mem_toList.mpr hs)⟩

theorem Implements.extends {name interface : String} (h : u.Implements name interface) :
    u.Extends name interface := by
  obtain ⟨c, hc, hi⟩ := h
  exact ⟨c, hc, List.mem_append_left _ hi⟩

theorem OnChain.above {name super : String} (h : u.OnChain name super) : u.Above name super :=
  Relation.ReflTransGen.mono (fun _ _ => Inherits.extends) _ _ h

theorem ThroughInterfaces.below {name interface : String} (h : u.ThroughInterfaces name interface) :
    u.Below name interface :=
  Relation.TransGen.mono (fun _ _ => Implements.extends) _ _ h

/-- It is enough that no name is listed as an interface and given as a superclass. -/
theorem Acyclic.interfacesApart (hu : u.Acyclic)
    (h : ∀ c ∈ u.classes, ∀ d ∈ u.classes, ∀ name ∈ c.interfaces, d.superclass ≠ some name)
    (start : String) : u.InterfacesApart start := by
  intro base x hbase hthrough _ hchain
  rcases Relation.ReflTransGen.cases_tail hchain with heq | ⟨lower, _, d, hd, hsuper⟩
  · -- The chain would start at a class above itself.
    refine hu start (Relation.TransGen.trans_right hbase.above ?_)
    rw [heq] at hthrough
    exact hthrough.below
  · obtain ⟨other, -, c, hc, hname⟩ := Relation.TransGen.tail'_iff.mp hthrough
    exact h c (mem_of_class? hc) d (mem_of_class? hd) x.name hname hsuper

/-! ## The recursive search -/

open Classical in
/-- The number of known classes from a name upwards. -/
noncomputable def rank (u : Universe) (name : String) : Nat :=
  u.classes.countP fun c => u.Above name c.name

/-- On an acyclic hierarchy a direct supertype has fewer classes above it. -/
theorem Acyclic.rank_lt (hu : u.Acyclic) {name super : String} (h : u.Extends name super) :
    u.rank super < u.rank name := by
  classical
  obtain ⟨c, hc, hs⟩ := h
  have hname : c.name = name := name_of_class? hc
  refine countP_lt_of_imp (mem_of_class? hc) ?_ ?_ fun b _ hb => ?_
  · refine decide_eq_false fun habove => hu name ?_
    rw [hname] at habove
    exact Relation.TransGen.head' ⟨c, hc, hs⟩ habove
  · rw [hname]
    exact decide_eq_true Relation.ReflTransGen.refl
  · exact decide_eq_true (Relation.ReflTransGen.head ⟨c, hc, hs⟩ (of_decide_eq_true hb))

/-- The first success on an interface, or else on the interfaces that it lists, in order. -/
def searchInterfaces (u : Universe) (hu : u.Acyclic) (find : ClassInfo → Option α)
    (name : String) : Option α :=
  match _hc : u.class? name with
  | none => none
  | some c =>
    (find c).or (c.interfaces.attach.findSome? fun i => u.searchInterfaces hu find i.1)
termination_by u.rank name
decreasing_by exact hu.rank_lt (Implements.extends ⟨c, _hc, i.2⟩)

/--
The first success on a class, or else on its interfaces and what they extend, in order, or else on
its superclass in the same way.
-/
def searchAbove (u : Universe) (hu : u.Acyclic) (find : ClassInfo → Option α)
    (name : String) : Option α :=
  match _hc : u.class? name with
  | none => none
  | some c =>
    (find c).or <| (c.interfaces.findSome? (u.searchInterfaces hu find)).or <|
      match _hs : c.superclass with
      | none => none
      | some super => u.searchAbove hu find super
termination_by u.rank name
decreasing_by exact hu.rank_lt (Inherits.extends ⟨c, _hc, _hs⟩)

section Equations

variable {hu : u.Acyclic} {find : ClassInfo → Option α} {name : String} {c : ClassInfo}

theorem searchInterfaces_unknown (hc : u.class? name = none) :
    u.searchInterfaces hu find name = none := by
  rw [searchInterfaces]
  split
  · rfl
  · simp_all

theorem searchInterfaces_known (hc : u.class? name = some c) :
    u.searchInterfaces hu find name =
      (find c).or (c.interfaces.findSome? (u.searchInterfaces hu find)) := by
  rw [searchInterfaces]
  split
  · simp_all
  · next d hd =>
    obtain rfl : c = d := Option.some.inj (hc.symm.trans hd)
    have hattach := List.findSome?_map (l := c.interfaces.attach) (f := Subtype.val)
      (p := u.searchInterfaces hu find)
    rw [List.attach_map_subtype_val] at hattach
    rw [hattach]
    rfl

theorem searchAbove_unknown (hc : u.class? name = none) : u.searchAbove hu find name = none := by
  rw [searchAbove]
  split
  · rfl
  · simp_all

theorem searchAbove_known (hc : u.class? name = some c) :
    u.searchAbove hu find name =
      (find c).or ((c.interfaces.findSome? (u.searchInterfaces hu find)).or
        (c.superclass.bind (u.searchAbove hu find))) := by
  rw [searchAbove]
  split
  · simp_all
  · next d hd =>
    obtain rfl : c = d := Option.some.inj (hc.symm.trans hd)
    congr 2
    split
    · next hs => rw [hs]; rfl
    · next super hs => rw [hs]; rfl

end Equations

/-! ## The walk over interfaces -/

/-- Names that are still to come are visited one after the other. -/
theorem visitInterfaces_append (u : Universe) (order : List ClassInfo)
    (pending more : List String) :
    u.visitInterfaces order (pending ++ more) =
      u.visitInterfaces (u.visitInterfaces order pending) more := by
  fun_induction u.visitInterfaces order pending with
  | case1 order => rfl
  | case2 order name rest hc ih => rw [List.cons_append, visitInterfaces_unknown hc, ih]
  | case3 order name rest c hc hv ih => rw [List.cons_append, visitInterfaces_seen hc hv, ih]
  | case4 order name rest c hc hv ih =>
    rw [List.cons_append, visitInterfaces_new hc hv, ← List.append_assoc, ih]

/-- What the walk adds are known classes that are reached from the names that were to come. -/
theorem reached_of_visitInterfaces {order more : List ClassInfo} {pending : List String}
    (h : u.visitInterfaces order pending = order ++ more) {x : ClassInfo} (hx : x ∈ more) :
    u.class? x.name = some x ∧
      ∃ name ∈ pending, Relation.ReflTransGen u.Implements name x.name := by
  fun_induction u.visitInterfaces order pending generalizing more with
  | case1 order =>
    rw [List.self_eq_append_right.mp h] at hx
    exact absurd hx List.not_mem_nil
  | case2 order name rest hc ih =>
    obtain ⟨hknown, n, hn, hreach⟩ := ih h hx
    exact ⟨hknown, n, List.mem_cons_of_mem _ hn, hreach⟩
  | case3 order name rest c hc hv ih =>
    obtain ⟨hknown, n, hn, hreach⟩ := ih h hx
    exact ⟨hknown, n, List.mem_cons_of_mem _ hn, hreach⟩
  | case4 order name rest c hc hv ih =>
    obtain ⟨later, hlater⟩ := u.visitInterfaces_eq_append (order ++ [c]) (c.interfaces ++ rest)
    rw [hlater, List.append_assoc, List.singleton_append] at h
    obtain rfl : c :: later = more := List.append_cancel_left h
    rcases List.mem_cons.mp hx with rfl | hx
    · rw [name_of_class? hc]
      exact ⟨hc, name, List.mem_cons_self, .refl⟩
    · obtain ⟨hknown, n, hn, hreach⟩ := ih hlater hx
      refine ⟨hknown, ?_⟩
      rcases List.mem_append.mp hn with hn | hn
      · exact ⟨name, List.mem_cons_self, hreach.head ⟨c, hc, hn⟩⟩
      · exact ⟨n, List.mem_cons_of_mem _ hn, hreach⟩

section Settling

variable {hu : u.Acyclic} {find : ClassInfo → Option α} {order : List ClassInfo} {name : String}
  {pending rest : List String}

/--
To visit some names adds classes among which the first success is that of the recursive search. If
there is none, then none of the added classes has anything to offer, nor has what lies above it.
-/
def Settles (hu : u.Acyclic) (find : ClassInfo → Option α) (order : List ClassInfo)
    (pending : List String) : Prop :=
  ∃ more, u.visitInterfaces order pending = order ++ more ∧
    more.findSome? find = pending.findSome? (u.searchInterfaces hu find) ∧
    (pending.findSome? (u.searchInterfaces hu find) = none →
      ∀ x ∈ more, u.searchInterfaces hu find x.name = none)

/-- Of the visited classes, those above a name have nothing to offer. -/
def Barren (hu : u.Acyclic) (find : ClassInfo → Option α) (order : List ClassInfo)
    (name : String) : Prop :=
  ∀ x ∈ order, u.Above name x.name → u.searchInterfaces hu find x.name = none

theorem settles_of_nothing_added (h : u.visitInterfaces order pending = order)
    (hnone : pending.findSome? (u.searchInterfaces hu find) = none) :
    Settles hu find order pending := by
  refine ⟨[], by rw [h, List.append_nil], hnone.symm, ?_⟩
  intro _ x hx
  exact absurd hx List.not_mem_nil

/-- Names one after the other, of which the later ones count if the first gives nothing. -/
theorem Settles.cons (hfirst : Settles hu find order [name])
    (hrest : u.searchInterfaces hu find name = none →
      Settles hu find (u.visitInterfaces order [name]) rest) :
    Settles hu find order (name :: rest) := by
  obtain ⟨more, hvisit, hfound, hsettled⟩ := hfirst
  rw [List.findSome?_singleton] at hfound hsettled
  have hsplit := u.visitInterfaces_append order [name] rest
  rw [List.singleton_append, hvisit] at hsplit
  cases hname : u.searchInterfaces hu find name with
  | some a =>
    obtain ⟨more', hmore'⟩ := u.visitInterfaces_eq_append (order ++ more) rest
    refine ⟨more ++ more', by rw [hsplit, hmore', List.append_assoc], ?_, ?_⟩
    · rw [List.findSome?_append, hfound, List.findSome?_cons, hname, Option.some_or]
    · intro hnone
      rw [List.findSome?_cons, hname] at hnone
      cases hnone
  | none =>
    obtain ⟨more', hvisit', hfound', hsettled'⟩ := hrest hname
    rw [hvisit] at hvisit'
    rw [hname] at hfound
    refine ⟨more ++ more', by rw [hsplit, hvisit', List.append_assoc], ?_, ?_⟩
    · rw [List.findSome?_append, hfound, hfound', List.findSome?_cons, hname, Option.none_or]
    · intro hnone x hx
      rw [List.findSome?_cons, hname] at hnone
      rcases List.mem_append.mp hx with hx | hx
      · exact hsettled hname x hx
      · exact hsettled' hnone x hx

/-- If each of some names settles by itself, they settle together. -/
theorem settles_of_forall
    (h : ∀ name ∈ pending, ∀ order, Barren hu find order name → Settles hu find order [name])
    (hbarren : ∀ name ∈ pending, Barren hu find order name) : Settles hu find order pending := by
  induction pending generalizing order with
  | nil => exact settles_of_nothing_added (u.visitInterfaces_nil order) rfl
  | cons name rest ih =>
    have hfirst := h name List.mem_cons_self order (hbarren name List.mem_cons_self)
    refine hfirst.cons fun hnone => ?_
    refine ih (fun n hn => h n (List.mem_cons_of_mem _ hn)) fun n hn x hx habove => ?_
    -- What the first name added has nothing to offer either.
    obtain ⟨more, hvisit, -, hsettled⟩ := hfirst
    rw [hvisit] at hx
    rcases List.mem_append.mp hx with hx | hx
    · exact hbarren n (List.mem_cons_of_mem _ hn) x hx habove
    · exact hsettled (by rw [List.findSome?_singleton, hnone]) x hx

/-- An interface that is new settles if what it lists does, once it is visited itself. -/
theorem settles_new {c : ClassInfo} (hc : u.class? name = some c)
    (hv : ¬ visited order c.name = true) (h : Settles hu find (order ++ [c]) c.interfaces) :
    Settles hu find order [name] := by
  obtain ⟨more, hvisit, hfound, hsettled⟩ := h
  have hsearch : u.searchInterfaces hu find name = _ := searchInterfaces_known hc
  refine ⟨c :: more, ?_, ?_, ?_⟩
  · rw [visitInterfaces_new hc hv, List.append_nil, hvisit, List.append_assoc,
      List.singleton_append]
  · rw [List.findSome?_singleton, hsearch, ← hfound, List.findSome?_cons]
    cases find c <;> rfl
  · intro hnone x hx
    rw [List.findSome?_singleton] at hnone
    rcases List.mem_cons.mp hx with rfl | hx
    · rw [name_of_class? hc]
      exact hnone
    · rw [hsearch, Option.or_eq_none_iff] at hnone
      exact hsettled hnone.2 x hx

/--
A single name settles if the visited classes above it have nothing to offer. The induction is on the
rank; a class that is being visited does not lie above its own interfaces, so it need not be barren.
-/
theorem settles_singleton (hbarren : Barren hu find order name) :
    Settles hu find order [name] := by
  induction hr : u.rank name using Nat.strong_induction_on generalizing name order with
  | _ r ih =>
    subst hr
    cases hc : u.class? name with
    | none =>
      refine settles_of_nothing_added ?_ ?_
      · rw [visitInterfaces_unknown hc, visitInterfaces_nil]
      · rw [List.findSome?_singleton, searchInterfaces_unknown hc]
    | some c =>
      by_cases hv : visited order c.name = true
      · refine settles_of_nothing_added ?_ ?_
        · rw [visitInterfaces_seen hc hv, visitInterfaces_nil]
        · obtain ⟨x, hx, hname⟩ := visited_eq_true_iff.mp hv
          rw [name_of_class? hc] at hname
          rw [List.findSome?_singleton, ← hname]
          refine hbarren x hx ?_
          rw [hname]
          exact Relation.ReflTransGen.refl
      · refine settles_new hc hv (settles_of_forall ?_ ?_)
        · intro i hi order' hbarren'
          exact ih _ (hu.rank_lt (Implements.extends ⟨c, hc, hi⟩)) hbarren' rfl
        · intro i hi x hx habove
          have hstep : u.Extends name i := Implements.extends ⟨c, hc, hi⟩
          rcases List.mem_append.mp hx with hx | hx
          · exact hbarren x hx (habove.head hstep)
          · rw [List.mem_singleton.mp hx, name_of_class? hc] at habove
            exact absurd (Relation.TransGen.head' hstep habove) (hu name)

theorem settles_of_barren (hbarren : ∀ name ∈ pending, Barren hu find order name) :
    Settles hu find order pending :=
  settles_of_forall (fun _ _ _ h => settles_singleton h) hbarren

end Settling

/-! ## The walk up the superclass chain -/

theorem climb_eq_append (u : Universe) (order : List ClassInfo) (current : Option String) :
    ∃ more, u.climb order current = order ++ more := by
  fun_induction u.climb order current with
  | case1 order => exact ⟨[], (List.append_nil _).symm⟩
  | case2 order name hc => exact ⟨[], (List.append_nil _).symm⟩
  | case3 order name c hc hv => exact ⟨[], (List.append_nil _).symm⟩
  | case4 order name c hc hv ih =>
    obtain ⟨more, hmore⟩ := ih
    obtain ⟨added, hadded⟩ := u.visitInterfaces_eq_append (order ++ [c]) c.interfaces
    refine ⟨c :: (added ++ more), ?_⟩
    rw [hmore, hadded]
    simp

/--
What has been visited on the way to the next superclass, as long as nothing was found: classes below
it, and classes that were reached through interfaces and have nothing to offer.
-/
def Passed (hu : u.Acyclic) (find : ClassInfo → Option α) (start : String)
    (order : List ClassInfo) (current : Option String) : Prop :=
  ∀ x ∈ order, (∀ super ∈ current, u.Below x.name super) ∨
    u.searchInterfaces hu find x.name = none ∧ u.class? x.name = some x ∧
      ∃ base, u.OnChain start base ∧ u.ThroughInterfaces base x.name

section Climbing

variable {hu : u.Acyclic} {find : ClassInfo → Option α} {start name : String}
  {order : List ClassInfo}

/-- The next superclass has not been visited. -/
theorem Passed.not_visited {c : ClassInfo} (h : Passed hu find start order (some name))
    (hapart : u.InterfacesApart start) (hchain : u.OnChain start name)
    (hc : u.class? name = some c) : ¬ visited order c.name = true := by
  intro hv
  obtain ⟨x, hx, hname⟩ := visited_eq_true_iff.mp hv
  rw [name_of_class? hc] at hname
  rcases h x hx with hbelow | ⟨-, hknown, base, hbase, hthrough⟩
  · have hcycle := hbelow name rfl
    rw [hname] at hcycle
    exact hu name hcycle
  · refine hapart base x hbase hthrough hknown ?_
    rw [hname]
    exact hchain

/-- The classes above the interfaces of the next superclass have nothing to offer. -/
theorem Passed.barren {c : ClassInfo} (h : Passed hu find start order (some name))
    (hc : u.class? name = some c) {i : String} (hi : i ∈ c.interfaces) :
    Barren hu find (order ++ [c]) i := by
  intro x hx habove
  have hcycle : u.Above x.name name → u.searchInterfaces hu find x.name = none := by
    intro hxname
    have hup : u.Below name x.name :=
      Relation.TransGen.head' (Implements.extends ⟨c, hc, hi⟩) habove
    exact absurd (Relation.TransGen.trans_left hup hxname) (hu name)
  rcases List.mem_append.mp hx with hx | hx
  · rcases h x hx with hbelow | ⟨hnone, -⟩
    · exact hcycle (hbelow name rfl).to_reflTransGen
    · exact hnone
  · refine hcycle ?_
    rw [List.mem_singleton.mp hx, name_of_class? hc]
    exact Relation.ReflTransGen.refl

/-- If a class and its interfaces give nothing, the walk goes on to the superclass. -/
theorem Passed.next {c : ClassInfo} {more : List ClassInfo}
    (h : Passed hu find start order (some name)) (hchain : u.OnChain start name)
    (hc : u.class? name = some c)
    (hvisit : u.visitInterfaces (order ++ [c]) c.interfaces = order ++ [c] ++ more)
    (hsettled : ∀ x ∈ more, u.searchInterfaces hu find x.name = none) :
    Passed hu find start (order ++ [c] ++ more) c.superclass := by
  have hstep : ∀ super ∈ c.superclass, u.Extends name super := fun super hs =>
    Inherits.extends ⟨c, hc, hs⟩
  intro x hx
  rcases List.mem_append.mp hx with hx | hx
  · rcases List.mem_append.mp hx with hx | hx
    · refine (h x hx).imp_left fun hbelow super hs => ?_
      exact (hbelow name rfl).tail (hstep super hs)
    · refine .inl fun super hs => ?_
      rw [List.mem_singleton.mp hx, name_of_class? hc]
      exact .single (hstep super hs)
  · obtain ⟨hknown, i, hi, hreach⟩ := reached_of_visitInterfaces hvisit hx
    exact .inr ⟨hsettled x hx, hknown, name, hchain, .head' ⟨c, hc, hi⟩ hreach⟩

/--
What the walk up the chain adds has the recursive search's success as its first. `Passed` is only
kept until there is a success, since whatever the walk adds later comes after it.
-/
theorem findSome?_climb (hapart : u.InterfacesApart start) (current : Option String)
    (hchain : ∀ name ∈ current, u.OnChain start name)
    (hpassed : Passed hu find start order current) :
    ∃ more, u.climb order current = order ++ more ∧
      more.findSome? find = current.bind (u.searchAbove hu find) := by
  fun_induction u.climb order current with
  | case1 order => exact ⟨[], (List.append_nil _).symm, rfl⟩
  | case2 order name hc =>
    exact ⟨[], (List.append_nil _).symm, (searchAbove_unknown hc).symm⟩
  | case3 order name c hc hv => exact absurd hv (hpassed.not_visited hapart (hchain name rfl) hc)
  | case4 order name c hc hv ih =>
    obtain ⟨added, hvisit, hfound, hsettled⟩ := settles_of_barren fun i hi => hpassed.barren hc hi
    have hsearch : (some name).bind (u.searchAbove hu find) = _ := searchAbove_known hc
    have hwhole (later : List ClassInfo) : (c :: (added ++ later)).findSome? find =
        ((find c).or (added.findSome? find)).or (later.findSome? find) := by
      rw [List.findSome?_cons, List.findSome?_append]
      cases find c <;> rfl
    rw [hsearch, ← hfound, ← Option.or_assoc]
    rw [hvisit] at ih ⊢
    cases hfind : (find c).or (added.findSome? find) with
    | some a =>
      obtain ⟨later, hlater⟩ := u.climb_eq_append (order ++ [c] ++ added) c.superclass
      refine ⟨c :: (added ++ later), by rw [hlater]; simp, ?_⟩
      rw [hwhole, hfind]
      rfl
    | none =>
      obtain ⟨-, hadded⟩ := Option.or_eq_none_iff.mp hfind
      rw [hfound] at hadded
      obtain ⟨later, hlater, hfound'⟩ := ih
        (fun super hs => (hchain name rfl).tail ⟨c, hc, hs⟩)
        (hpassed.next (hchain name rfl) hc hvisit (hsettled hadded))
      refine ⟨c :: (added ++ later), by rw [hlater]; simp, ?_⟩
      rw [hwhole, hfind, hfound']

end Climbing

/--
The first success on the walk up the hierarchy is that of the recursive search, if the hierarchy is
acyclic and interfaces are apart from superclasses.
-/
theorem findSome?_ancestors (hu : u.Acyclic) {start : String} (hapart : u.InterfacesApart start)
    (find : ClassInfo → Option α) :
    (u.ancestors start).findSome? find = u.searchAbove hu find start := by
  have hchain : ∀ name ∈ some start, u.OnChain start name := by
    intro name hname
    rw [Option.some.inj hname]
    exact .refl
  have hpassed : Passed hu find start [] (some start) := by
    intro x hx
    exact absurd hx List.not_mem_nil
  obtain ⟨more, hclimb, hfound⟩ := findSome?_climb hapart (some start) hchain hpassed
  rw [ancestors, hclimb]
  exact hfound

/-! ## Fields -/

/-- The first public field of a class with a name, as a member. -/
def publicField? (field : String) (c : ClassInfo) : Option Member :=
  (c.fields.find? fun f => f.name = field && f.flags.isPublic).map c.fieldMember

/--
A look-up of a public field is the recursive search: the field that the class itself declares, or
else the first that its interfaces have, or else that of the superclass. It fails if the search
does.
-/
theorem lookupField_eq_searchAbove (u : Universe) (hu : u.Acyclic) (owner : String)
    (hapart : u.InterfacesApart owner) (field : String) :
    u.lookupField (.named owner) field false =
      foundOr (.noSuchField owner field) (u.searchAbove hu (publicField? field) owner) := by
  rw [← findSome?_ancestors hu hapart]
  rfl

/-- A class or interface that declares public fields of some names. -/
def fieldClass (name : String) (superclass : Option String) (interfaces : List String)
    (fields : List String) : ClassInfo where
  name := name
  flags := .publicOnly
  superclass := superclass
  interfaces := interfaces
  fields := fields.map fun field => ⟨field, .primitive .int, .publicOnly⟩
  methods := []
  constructors := []

/-- A hierarchy in which one interface is reached in three ways, also from a superclass. -/
def diamond : Universe :=
  ofList [fieldClass "app.Root" none [] ["LIMIT"],
    fieldClass "app.Left" none ["app.Gone", "app.Root"] [],
    fieldClass "app.Base" none ["app.Root"] ["id"],
    fieldClass "app.Child" (some "app.Base") ["app.Left", "app.Root"] []]

/-- The field of the superclass is found, after names that the walk passes over. -/
theorem lookupField_eq_searchAbove_diamond :
    ∃ hu : diamond.Acyclic, diamond.InterfacesApart "app.Child" ∧
      (diamond.lookupField (.named "app.Child") "id" false =
        foundOr (.noSuchField "app.Child" "id")
          (diamond.searchAbove hu (publicField? "id") "app.Child")) ∧
      diamond.lookupField (.named "app.Child") "id" false =
        .ok (.field (.named "app.Base") "id" (.primitive .int)) := by
  let rank (name : String) : Nat :=
    ["app.Gone", "app.Root", "app.Left", "app.Base", "app.Child"].idxOf name
  have hu : diamond.Acyclic := acyclic_of_rank rank (by decide)
  have hapart : diamond.InterfacesApart "app.Child" := hu.interfacesApart (by decide) _
  exact ⟨hu, hapart, diamond.lookupField_eq_searchAbove hu "app.Child" hapart "id", by cbv⟩

end CallFold.Universe
