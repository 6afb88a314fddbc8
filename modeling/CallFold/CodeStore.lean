import CallFold.Method
import CallFold.Table

/-!
# Stores of loaded code

Classes are loaded when they are first needed and at most once, so the number of loads is the number
of classes in the store. A load that fails leaves nothing behind and is tried again.
-/

namespace CallFold

/-- Loads the methods of a declaring type. -/
abbrev Loader : Type := String → Except Error ClassCode

/-- A loader that serves classes held in memory, of which a later one replaces an earlier one. -/
def Loader.ofClasses (classes : List ClassCode) : Loader := fun name =>
  match (classes.foldl (fun table c => table.insert c.name c) Table.empty).get? name with
  | some c => .ok c
  | none => .error (.load name .unknownType)

/-- The classes loaded so far, by declaring type. -/
structure CodeStore where
  loaded : Table String ClassCode

namespace CodeStore

/-- Nothing is loaded. -/
def empty : CodeStore := ⟨.empty⟩

/-- The number of loaded classes, which is the number of loads. -/
def size (s : CodeStore) : Nat := s.loaded.size

/-- Whether nothing is loaded. -/
def isEmpty (s : CodeStore) : Bool := s.loaded.isEmpty

/-- Whether a type is loaded. -/
def contains (s : CodeStore) (type : String) : Bool := s.loaded.contains type

/-- The class of a type, loaded now if it was not. -/
def classCode (s : CodeStore) (load : Loader) (type : String) :
    CodeStore × Except Error ClassCode :=
  match s.loaded.get? type with
  | some c => (s, .ok c)
  | none =>
    match load type with
    | .ok c => (⟨s.loaded.insert type c⟩, .ok c)
    | .error e => (s, .error e)

/-- The body of a method, whose class is loaded now if it was not. -/
def method (s : CodeStore) (load : Loader) (key : MethodKey) :
    CodeStore × Except Error MethodBody :=
  match s.classCode load key.declaringType with
  | (s', .error e) => (s', .error e)
  | (s', .ok c) =>
    match c.method? key.name key.descriptor with
    | some m => (s', .ok m)
    | none => (s', .error (.load key.declaringType (.noMethod key.name key.descriptor)))

end CodeStore

end CallFold
