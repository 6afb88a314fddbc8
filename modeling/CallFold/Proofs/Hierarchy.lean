import CallFold.Universe.Hierarchy
import Mathlib.Data.List.Chain
import Mathlib.Data.List.Nodup
import Mathlib.Logic.Relation

/-!
# What a walk up the hierarchy visits

The supertypes of a class as a relation on names, and what can be said of a walk up this relation
without its order: it starts at the class it was asked for, and goes on with known classes that are
new and that are direct supertypes of a class visited before (`Explores`). From this follow that the
visited classes are known and distinct, and that a chain of visited classes leads to each of them.

* `explores_ancestors`: the classes above a name are explored in this way.
* `Explores.exists_leadsTo`: each of them is at the end of a chain of classes before it.
* `ancestors_retable`: what the classes declare plays no part in the walk.
-/

namespace CallFold

/-- The names of the direct supertypes of a class, in the order in which they are visited. -/
def ClassInfo.supertypes (c : ClassInfo) : List String := c.interfaces ++ c.superclass.toList

/-- The class with the methods that a table has for its name. -/
def ClassInfo.retable (table : String → List MethodInfo) (c : ClassInfo) : ClassInfo :=
  { c with methods := table c.name }

namespace Universe

/-! ## Supertypes -/

/-- A name stands for a known class of which the other is a direct supertype. -/
def Extends (u : Universe) (name super : String) : Prop :=
  ∃ c, u.class? name = some c ∧ super ∈ c.supertypes

/-- The second name is the first, or one of its supertypes through known classes. -/
def Above (u : Universe) : String → String → Prop := Relation.ReflTransGen u.Extends

/-- The first name is a proper subtype of the second, through known classes. -/
def Below (u : Universe) : String → String → Prop := Relation.TransGen u.Extends

/-- No class is a proper subtype of itself. -/
def Acyclic (u : Universe) : Prop := ∀ name, ¬ u.Below name name

/-- A hierarchy is acyclic if the supertypes of each class have a lower rank. -/
theorem acyclic_of_rank {u : Universe} (rank : String → Nat)
    (h : ∀ c ∈ u.classes, ∀ super ∈ c.supertypes, rank super < rank c.name) : u.Acyclic := by
  have hbelow : ∀ {a b : String}, u.Below a b → rank b < rank a := by
    intro a b hab
    have hstep : ∀ {a b : String}, u.Extends a b → rank b < rank a := by
      rintro a b ⟨c, hc, hb⟩
      rw [← name_of_class? hc]
      exact h c (mem_of_class? hc) b hb
    induction hab with
    | single hb => exact hstep hb
    | tail _ hc ih => exact Nat.lt_trans (hstep hc) ih
  intro name hname
  exact Nat.lt_irrefl _ (hbelow hname)

/-- A name that has a supertype is known. -/
theorem Below.exists_class? {u : Universe} {a b : String} (h : u.Below a b) :
    ∃ c, u.class? a = some c := by
  obtain ⟨_, ⟨c, hc, _⟩, _⟩ := Relation.TransGen.head'_iff.mp h
  exact ⟨c, hc⟩

/--
A chain of direct supertypes leads from a name to another. The list holds the names on the chain
before the last one, so it is empty if the names are the same.
-/
def LeadsTo (u : Universe) (start : String) (chain : List String) (last : String) : Prop :=
  (chain ++ [last]).head? = some start ∧ (chain ++ [last]).IsChain u.Extends

theorem leadsTo_self (u : Universe) (name : String) : u.LeadsTo name [] name :=
  ⟨rfl, List.isChain_singleton name⟩

theorem LeadsTo.extend {u : Universe} {start name super : String} {chain : List String}
    (h : u.LeadsTo start chain name) (hs : u.Extends name super) :
    u.LeadsTo start (chain ++ [name]) super := by
  obtain ⟨hhead, hchain⟩ := h
  constructor
  · rw [List.head?_append, hhead, Option.some_or]
  · exact hchain.append (List.isChain_singleton super) (by simpa using hs)

/-! ## The steps of the walk -/

theorem visited_eq_true_iff {order : List ClassInfo} {name : String} :
    visited order name = true ↔ ∃ c ∈ order, c.name = name := by
  simp [visited]

section Steps

variable {u : Universe} {order : List ClassInfo} {name : String} {rest : List String}
  {c : ClassInfo}

theorem visitInterfaces_nil (u : Universe) (order : List ClassInfo) :
    u.visitInterfaces order [] = order := by
  rw [visitInterfaces]

theorem visitInterfaces_unknown (hc : u.class? name = none) :
    u.visitInterfaces order (name :: rest) = u.visitInterfaces order rest := by
  rw [visitInterfaces]
  split
  · rfl
  · simp_all

theorem visitInterfaces_seen (hc : u.class? name = some c) (hv : visited order c.name = true) :
    u.visitInterfaces order (name :: rest) = u.visitInterfaces order rest := by
  rw [visitInterfaces]
  split
  · rfl
  · simp_all

theorem visitInterfaces_new (hc : u.class? name = some c) (hv : ¬ visited order c.name = true) :
    u.visitInterfaces order (name :: rest) =
      u.visitInterfaces (order ++ [c]) (c.interfaces ++ rest) := by
  rw [visitInterfaces]
  split
  · simp_all
  · simp_all

theorem climb_none (u : Universe) (order : List ClassInfo) : u.climb order none = order := by
  rw [climb]

theorem climb_unknown (hc : u.class? name = none) : u.climb order (some name) = order := by
  rw [climb]
  split
  · rfl
  · simp_all

theorem climb_seen (hc : u.class? name = some c) (hv : visited order c.name = true) :
    u.climb order (some name) = order := by
  rw [climb]
  split
  · rfl
  · simp_all

theorem climb_new (hc : u.class? name = some c) (hv : ¬ visited order c.name = true) :
    u.climb order (some name) =
      u.climb (u.visitInterfaces (order ++ [c]) c.interfaces) c.superclass := by
  rw [climb]
  split
  · simp_all
  · simp_all

end Steps

/-! ## Exploring -/

/--
The classes that can have been visited, in order, by a walk that starts at a name: each is known,
new and, but for the first, a direct supertype of a class visited before.
-/
inductive Explores (u : Universe) (start : String) : List ClassInfo → Prop where
  | nothing : Explores u start []
  | first {c : ClassInfo} (hc : u.class? start = some c) : Explores u start [c]
  | next {order : List ClassInfo} {b c : ClassInfo} (h : Explores u start order) (hb : b ∈ order)
      (hs : c.name ∈ b.supertypes) (hc : u.class? c.name = some c)
      (hv : visited order c.name = false) : Explores u start (order ++ [c])

namespace Explores

variable {u : Universe} {start : String} {order : List ClassInfo}

/-- A known class that is new and has the name of a supertype of a visited class. -/
theorem visit {name : String} {c : ClassInfo} (h : u.Explores start order)
    (hs : ∃ b ∈ order, name ∈ b.supertypes) (hc : u.class? name = some c)
    (hv : ¬ visited order c.name = true) : u.Explores start (order ++ [c]) := by
  obtain ⟨b, hb, hname⟩ := hs
  have hcname : c.name = name := name_of_class? hc
  rw [← hcname] at hname hc
  exact h.next hb hname hc (by simpa using hv)

theorem visitInterfaces (pending : List String) (h : u.Explores start order)
    (hp : ∀ name ∈ pending, ∃ b ∈ order, name ∈ b.supertypes) :
    u.Explores start (u.visitInterfaces order pending) := by
  fun_induction u.visitInterfaces order pending with
  | case1 order => exact h
  | case2 order name rest hc ih => exact ih h fun n hn => hp n (List.mem_cons_of_mem _ hn)
  | case3 order name rest c hc hv ih => exact ih h fun n hn => hp n (List.mem_cons_of_mem _ hn)
  | case4 order name rest c hc hv ih =>
    refine ih (h.visit (hp name List.mem_cons_self) hc hv) fun n hn => ?_
    rcases List.mem_append.mp hn with hn | hn
    · exact ⟨c, List.mem_append_right _ (List.mem_singleton_self c), List.mem_append_left _ hn⟩
    · obtain ⟨b, hb, hname⟩ := hp n (List.mem_cons_of_mem _ hn)
      exact ⟨b, List.mem_append_left _ hb, hname⟩

theorem climb (current : Option String) (h : u.Explores start order)
    (hcurrent : ∀ name ∈ current,
      (order = [] ∧ name = start) ∨ ∃ b ∈ order, name ∈ b.supertypes) :
    u.Explores start (u.climb order current) := by
  fun_induction u.climb order current with
  | case1 order => exact h
  | case2 order name hc => exact h
  | case3 order name c hc hv => exact h
  | case4 order name c hc hv ih =>
    have hvisited : u.Explores start (order ++ [c]) := by
      rcases hcurrent name rfl with ⟨rfl, rfl⟩ | hs
      · exact first hc
      · exact h.visit hs hc hv
    have hself : c ∈ order ++ [c] := List.mem_append_right _ (List.mem_singleton_self c)
    refine ih (hvisited.visitInterfaces c.interfaces fun n hn => ?_) fun n hn => Or.inr ?_
    · exact ⟨c, hself, List.mem_append_left _ hn⟩
    · -- The class is still among the visited ones when its superclass comes up.
      obtain ⟨more, hmore⟩ := visitInterfaces_eq_append u (order ++ [c]) c.interfaces
      refine ⟨c, ?_, List.mem_append_right _ (Option.mem_toList.mpr hn)⟩
      rw [hmore]
      exact List.mem_append_left _ hself

end Explores

/-- The classes above a name are explored from it. -/
theorem explores_ancestors (u : Universe) (start : String) :
    u.Explores start (u.ancestors start) := by
  refine Explores.nothing.climb (some start) fun name hname => Or.inl ⟨rfl, ?_⟩
  exact (Option.some.inj hname).symm

namespace Explores

variable {u : Universe} {start : String} {order : List ClassInfo}

/-- Each visited class is the known class of its name. -/
theorem class?_of_mem (h : u.Explores start order) {c : ClassInfo} (hc : c ∈ order) :
    u.class? c.name = some c := by
  induction h with
  | nothing => simp at hc
  | first hstart =>
    rw [List.mem_singleton.mp hc, name_of_class? hstart]
    exact hstart
  | next _ _ _ hnew _ ih =>
    rcases List.mem_append.mp hc with hc | hc
    · exact ih hc
    · rw [List.mem_singleton.mp hc]
      exact hnew

/-- No class is visited twice. -/
theorem nodup_names (h : u.Explores start order) : (order.map ClassInfo.name).Nodup := by
  induction h with
  | nothing => exact List.nodup_nil
  | first _ => exact List.nodup_singleton _
  | @next order _ c _ _ _ _ hv ih =>
    have hnew : c.name ∉ order.map ClassInfo.name := by
      intro hmem
      have htrue : visited order c.name = true := visited_eq_true_iff.mpr (List.mem_map.mp hmem)
      rw [hv] at htrue
      exact Bool.false_ne_true htrue
    rw [List.map_append, List.map_singleton, ← List.concat_eq_append]
    exact ih.concat hnew

/-- A chain of classes visited before it leads to each visited class. -/
theorem exists_leadsTo (h : u.Explores start order) {pre post : List ClassInfo} {c : ClassInfo}
    (hsplit : order = pre ++ c :: post) :
    ∃ chain, u.LeadsTo start chain c.name ∧ ∀ name ∈ chain, ∃ b ∈ pre, b.name = name := by
  induction h generalizing pre post c with
  | nothing => simp at hsplit
  | @first d hstart =>
    have hcd : c = d := by
      have hc : c ∈ [d] := by rw [hsplit]; simp
      exact List.mem_singleton.mp hc
    rw [hcd, name_of_class? hstart]
    exact ⟨[], u.leadsTo_self start, by simp⟩
  | @next order b d hexplores hb hs hd _ ih =>
    rcases List.eq_nil_or_concat post with rfl | ⟨post, last, rfl⟩
    · -- The last class: its chain goes on from the chain of the subtype `b`.
      obtain ⟨rfl, hdc⟩ := List.append_inj' hsplit rfl
      obtain rfl : d = c := List.singleton_inj.mp hdc
      obtain ⟨before, after, rfl⟩ := List.append_of_mem hb
      obtain ⟨chain, hchain, hbefore⟩ := ih rfl
      have hextends : u.Extends b.name d.name := ⟨b, hexplores.class?_of_mem hb, hs⟩
      refine ⟨chain ++ [b.name], hchain.extend hextends, fun name hname => ?_⟩
      rcases List.mem_append.mp hname with hname | hname
      · obtain ⟨x, hx, hxname⟩ := hbefore name hname
        exact ⟨x, List.mem_append_left _ hx, hxname⟩
      · exact ⟨b, hb, (List.mem_singleton.mp hname).symm⟩
    · rw [List.concat_eq_append, ← List.cons_append, ← List.append_assoc] at hsplit
      exact ih (List.append_inj' hsplit rfl).1

end Explores

/-! ## Method tables -/

/-- The same hierarchy with other methods: each class declares those of a table. -/
def retable (u : Universe) (table : String → List MethodInfo) : Universe where
  classes := u.classes.map (ClassInfo.retable table)
  distinct := by
    rw [List.map_map]
    exact u.distinct

section Retable

variable (u : Universe) (table : String → List MethodInfo)

theorem class?_retable (name : String) :
    (u.retable table).class? name =
      (u.class? name).map (ClassInfo.retable table) := by
  rw [class?, class?, retable, List.find?_map]
  rfl

theorem extends_retable : (u.retable table).Extends = u.Extends := by
  funext name super
  simp only [Extends, class?_retable, Option.map_eq_some_iff, eq_iff_iff]
  constructor
  · rintro ⟨_, ⟨c, hc, rfl⟩, hs⟩
    exact ⟨c, hc, hs⟩
  · rintro ⟨c, hc, hs⟩
    exact ⟨_, ⟨c, hc, rfl⟩, hs⟩

theorem visited_retable (order : List ClassInfo) (name : String) :
    visited (order.map (ClassInfo.retable table)) name = visited order name := by
  rw [visited, visited, List.any_map]
  rfl

theorem visitInterfaces_retable (order : List ClassInfo) (pending : List String) :
    (u.retable table).visitInterfaces (order.map (ClassInfo.retable table)) pending =
      (u.visitInterfaces order pending).map (ClassInfo.retable table) := by
  fun_induction u.visitInterfaces order pending with
  | case1 order => exact visitInterfaces_nil _ _
  | case2 order name rest hc ih =>
    rw [visitInterfaces_unknown (by rw [class?_retable, hc]; rfl)]
    exact ih
  | case3 order name rest c hc hv ih =>
    have hc' := u.class?_retable table name
    rw [hc] at hc'
    rw [visitInterfaces_seen hc' (by rw [visited_retable]; exact hv)]
    exact ih
  | case4 order name rest c hc hv ih =>
    have hc' := u.class?_retable table name
    rw [hc] at hc'
    rw [visitInterfaces_new hc' (by rw [visited_retable]; exact hv)]
    rw [List.map_append] at ih
    exact ih

theorem climb_retable (order : List ClassInfo) (current : Option String) :
    (u.retable table).climb (order.map (ClassInfo.retable table)) current =
      (u.climb order current).map (ClassInfo.retable table) := by
  fun_induction u.climb order current with
  | case1 order => exact climb_none _ _
  | case2 order name hc => exact climb_unknown (by rw [class?_retable, hc]; rfl)
  | case3 order name c hc hv =>
    have hc' := u.class?_retable table name
    rw [hc] at hc'
    exact climb_seen hc' (by rw [visited_retable]; exact hv)
  | case4 order name c hc hv ih =>
    have hc' := u.class?_retable table name
    rw [hc] at hc'
    rw [← visitInterfaces_retable, List.map_append] at ih
    rw [climb_new hc' (by rw [visited_retable]; exact hv)]
    exact ih

/-- What the classes declare plays no part in the walk. -/
theorem ancestors_retable (name : String) :
    (u.retable table).ancestors name =
      (u.ancestors name).map (ClassInfo.retable table) :=
  u.climb_retable table [] (some name)

end Retable

end Universe

end CallFold
