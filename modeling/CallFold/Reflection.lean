import CallFold.Catalog
import CallFold.ConstantArray

/-!
# Reflective look-ups

The calls that are recognised by default: the look-ups of classes and members by reflection, and
those of method handles. Each handler infers the arguments that it needs in turn, declines as soon
as one of them is not constant, and then answers the look-up from metadata. A look-up that fails at
run time is resolved too, and registered, so that it goes on failing where it did.

Look-ups of method handles need a constant handle and a constant method type. Neither is ever
inferred, so these calls are always declined. They are recognised all the same, which keeps arrays
that are passed to them from escaping, and their sites are never replaced.
-/

namespace CallFold

/-- The recognised look-ups. The flag asks for what the class itself declares. -/
inductive ReflectiveCall where
  | forName
  | forNameInitialize
  | field (declaredOnly : Bool)
  | method (declaredOnly : Bool)
  | constructor (declaredOnly : Bool)
  | bulk (query : MemberQuery)
  | findStatic
  | findVirtual
  | findConstructor
deriving DecidableEq

namespace ReflectiveCall

/-- Every recognised look-up. -/
def all : List ReflectiveCall :=
  [.forName, .forNameInitialize, .field false, .field true, .method false, .method true,
    .constructor false, .constructor true] ++ MemberQuery.all.map .bulk ++
    [.findStatic, .findVirtual, .findConstructor]

/-! ## Signatures -/

/-- The class on which look-ups by reflection are called. -/
def classOwner : String := "java/lang/Class"

/-- The class on which look-ups of method handles are called. -/
def handleOwner : String := "java/lang/invoke/MethodHandles$Lookup"

/-- Whether a look-up is one of method handles. -/
def isHandleLookup : ReflectiveCall → Bool
  | findStatic | findVirtual | findConstructor => true
  | _ => false

/-- The name of the called method. -/
def name : ReflectiveCall → String
  | forName | forNameInitialize => "forName"
  | field false => "getField"
  | field true => "getDeclaredField"
  | method false => "getMethod"
  | method true => "getDeclaredMethod"
  | constructor false => "getConstructor"
  | constructor true => "getDeclaredConstructor"
  | bulk query => query.name
  | findStatic => "findStatic"
  | findVirtual => "findVirtual"
  | findConstructor => "findConstructor"

/-- The descriptor of the call that answers a bulk query. -/
def bulkDescriptor : MemberQuery → String
  | .fields | .declaredFields => "()[Ljava/lang/reflect/Field;"
  | .methods | .declaredMethods => "()[Ljava/lang/reflect/Method;"
  | .constructors | .declaredConstructors => "()[Ljava/lang/reflect/Constructor;"

/-- The descriptor of the look-ups of method handles by name. -/
def namedHandleDescriptor : String :=
  "(Ljava/lang/Class;Ljava/lang/String;Ljava/lang/invoke/MethodType;)" ++
    "Ljava/lang/invoke/MethodHandle;"

/-- The descriptor of the called method. -/
def descriptor : ReflectiveCall → String
  | forName => "(Ljava/lang/String;)Ljava/lang/Class;"
  | forNameInitialize => "(Ljava/lang/String;ZLjava/lang/ClassLoader;)Ljava/lang/Class;"
  | field _ => "(Ljava/lang/String;)Ljava/lang/reflect/Field;"
  | method _ => "(Ljava/lang/String;[Ljava/lang/Class;)Ljava/lang/reflect/Method;"
  | constructor _ => "([Ljava/lang/Class;)Ljava/lang/reflect/Constructor;"
  | bulk query => bulkDescriptor query
  | findStatic | findVirtual => namedHandleDescriptor
  | findConstructor =>
    "(Ljava/lang/Class;Ljava/lang/invoke/MethodType;)Ljava/lang/invoke/MethodHandle;"

/-- The signature by which the call is recognised. -/
def signature (c : ReflectiveCall) : CallSignature where
  owner := if c.isHandleLookup then handleOwner else classOwner
  name := c.name
  descriptor := c.descriptor

/-! ## Handlers -/

/-- Looks a class up by name. -/
def resolveClass (m : Metadata) (name : String) : Resolution where
  outcome := match m.classForName name with
    | some handle => .resolved (.type handle)
    | none => .failed (.classNotFound name)
  registration := .classLookup name

/-- The outcome of looking a member up. -/
def memberOutcome : Except LookupFailure Member → Outcome
  | .ok member => .resolved (.member member)
  | .error failure => .failed failure

/-- Looks a field up. -/
def resolveField (m : Metadata) (owner : TypeHandle) (name : String) (declaredOnly : Bool) :
    Resolution where
  outcome := memberOutcome (m.lookupField owner name declaredOnly)
  registration := .fieldLookup owner name declaredOnly

/-- Looks a method up. -/
def resolveMethod (m : Metadata) (owner : TypeHandle) (name : String)
    (parameters : List TypeHandle) (declaredOnly : Bool) : Resolution where
  outcome := memberOutcome (m.lookupMethod owner name parameters declaredOnly)
  registration := .methodLookup owner name parameters declaredOnly

/-- Looks a constructor up. -/
def resolveConstructor (m : Metadata) (owner : TypeHandle) (parameters : List TypeHandle)
    (declaredOnly : Bool) : Resolution where
  outcome := memberOutcome (m.lookupConstructor owner parameters declaredOnly)
  registration := .constructorLookup owner parameters declaredOnly

/-- Answers a bulk query. -/
def resolveBulk (m : Metadata) (owner : TypeHandle) (query : MemberQuery) : Resolution where
  outcome := .resolved (.members (m.members owner query))
  registration := .bulkQuery owner query

/-- Asks for an argument and goes on with it; declines the call if it is not constant. -/
def ask {α : Type} (slot : Except Error IndexSet) (find : IndexSet → Option α)
    (rest : α → Except Error (Option Resolution)) : Except Error (Option Resolution) := do
  match find (← slot) with
  | some a => rest a
  | none => return none

/--
How each look-up is evaluated. Whether a class is to be initialised must be known, but it does not
matter; class loaders are ignored. A method handle sees what its own class declares.
-/
def handler (c : ReflectiveCall) : Handler := fun scope context =>
  match c with
  | forName =>
    ask (context.parameter 0) (scope.infer .text) fun name =>
    .ok (some (resolveClass scope.metadata name))
  | forNameInitialize =>
    ask (context.parameter 0) (scope.infer .text) fun name =>
    ask (context.parameter 1) (scope.infer .boolean) fun _ =>
    .ok (some (resolveClass scope.metadata name))
  | field declaredOnly =>
    ask context.receiver (scope.infer .type) fun owner =>
    ask (context.parameter 0) (scope.infer .text) fun name =>
    .ok (some (resolveField scope.metadata owner name declaredOnly))
  | method declaredOnly =>
    ask context.receiver (scope.infer .type) fun owner =>
    ask (context.parameter 0) (scope.infer .text) fun name =>
    ask (context.parameter 1) (scope.inferArray .type · context.site) fun parameters =>
    .ok (some (resolveMethod scope.metadata owner name parameters declaredOnly))
  | constructor declaredOnly =>
    ask context.receiver (scope.infer .type) fun owner =>
    ask (context.parameter 0) (scope.inferArray .type · context.site) fun parameters =>
    .ok (some (resolveConstructor scope.metadata owner parameters declaredOnly))
  | bulk query =>
    ask context.receiver (scope.infer .type) fun owner =>
    .ok (some (resolveBulk scope.metadata owner query))
  | findStatic | findVirtual =>
    ask context.receiver (scope.infer .lookupHandle) fun handle =>
    ask (context.parameter 0) (scope.infer .type) fun owner =>
    ask (context.parameter 1) (scope.infer .text) fun name =>
    ask (context.parameter 2) (scope.infer .parameterList) fun shape =>
    .ok (some
      (resolveMethod scope.metadata owner name shape.parameters (handle.lookupClass = owner)))
  | findConstructor =>
    ask context.receiver (scope.infer .lookupHandle) fun handle =>
    ask (context.parameter 0) (scope.infer .type) fun owner =>
    ask (context.parameter 1) (scope.infer .parameterList) fun shape =>
    .ok (some
      (resolveConstructor scope.metadata owner shape.parameters (handle.lookupClass = owner)))

end ReflectiveCall

/-- The catalog of the reflective look-ups. -/
def Catalog.reflection : Catalog :=
  ReflectiveCall.all.foldl
    (fun catalog call => catalog.register call.signature call.handler !call.isHandleLookup) .empty

end CallFold
