import CallFold.Counting
import CallFold.Universe

/-!
# The hierarchy above a class

The classes whose public members a class has: the class itself, then its interfaces and theirs in
depth-first order, then the same for its superclass, and so on. Each class is visited once, and
classes that are not known end their branch.

The walks end on every universe, cyclic ones included: each class that is visited leaves fewer
classes to visit (`Universe.unvisited`), and between two visits the list of names gets shorter.
-/

namespace CallFold.Universe

/-- Whether a class of a name has been visited. -/
def visited (order : List ClassInfo) (name : String) : Bool :=
  order.any fun c => c.name = name

/-- The number of known classes that have not been visited. -/
def unvisited (u : Universe) (order : List ClassInfo) : Nat :=
  u.classes.countP fun c => !visited order c.name

theorem visited_append (order more : List ClassInfo) (name : String) :
    visited (order ++ more) name = (visited order name || visited more name) := by
  simp [visited]

/-- Visiting a known class that was not visited leaves fewer to visit. -/
theorem unvisited_append_lt {u : Universe} {order : List ClassInfo} {c : ClassInfo}
    (hc : c ∈ u.classes) (hv : visited order c.name = false) :
    u.unvisited (order ++ [c]) < u.unvisited order := by
  refine countP_lt_of_imp hc ?_ ?_ fun b _ hb => ?_
  · simp [visited]
  · simp [hv]
  · rw [visited_append] at hb
    simp only [Bool.not_or, Bool.and_eq_true] at hb
    exact hb.1

/-- Visits the interfaces of some names, and theirs before those that are still to come. -/
def visitInterfaces (u : Universe) (order : List ClassInfo) (pending : List String) :
    List ClassInfo :=
  match pending with
  | [] => order
  | name :: rest =>
    match _hc : u.class? name with
    | none => u.visitInterfaces order rest
    | some c =>
      if _hv : visited order c.name then u.visitInterfaces order rest
      else u.visitInterfaces (order ++ [c]) (c.interfaces ++ rest)
termination_by (u.unvisited order, pending.length)
decreasing_by
  · exact Prod.Lex.right _ (by simp)
  · exact Prod.Lex.right _ (by simp)
  · exact Prod.Lex.left _ _ (unvisited_append_lt (mem_of_class? _hc) (by simpa using _hv))

theorem unvisited_append_le (u : Universe) (order more : List ClassInfo) :
    u.unvisited (order ++ more) ≤ u.unvisited order := by
  refine List.countP_mono_left fun b _ hb => ?_
  rw [visited_append] at hb
  simp only [Bool.not_or, Bool.and_eq_true] at hb
  exact hb.1

/-- Visiting interfaces only adds to what was visited. -/
theorem visitInterfaces_eq_append (u : Universe) (order : List ClassInfo) (pending : List String) :
    ∃ more, u.visitInterfaces order pending = order ++ more := by
  fun_induction visitInterfaces u order pending with
  | case1 order => exact ⟨[], by simp⟩
  | case2 order name rest hc ih => exact ih
  | case3 order name rest c hc hv ih => exact ih
  | case4 order name rest c hc hv ih =>
    obtain ⟨more, hmore⟩ := ih
    exact ⟨c :: more, by rw [hmore]; simp⟩

/-- Visits a class, its interfaces, and then its superclass in the same way. -/
def climb (u : Universe) (order : List ClassInfo) (current : Option String) : List ClassInfo :=
  match current with
  | none => order
  | some name =>
    match _hc : u.class? name with
    | none => order
    | some c =>
      if _hv : visited order c.name then order
      else u.climb (u.visitInterfaces (order ++ [c]) c.interfaces) c.superclass
termination_by u.unvisited order
decreasing_by
  obtain ⟨more, hmore⟩ := visitInterfaces_eq_append u (order ++ [c]) c.interfaces
  rw [hmore]
  exact Nat.lt_of_le_of_lt (unvisited_append_le u _ more)
    (unvisited_append_lt (mem_of_class? _hc) (by simpa using _hv))

/-- The class of a name with everything above it, in the order in which members are looked up. -/
def ancestors (u : Universe) (name : String) : List ClassInfo :=
  u.climb [] (some name)

end CallFold.Universe
