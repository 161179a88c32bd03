import MatrixScript.Builtin

/-!
# Sessions

A session holds the declared variables and the sink for output.  Names of builtins, `init` and `let`
cannot be declared.
-/

namespace MatrixScript

/-! ## Variables -/

/-- The variables in the order in which they were first declared. -/
structure Environment where
  bindings : List (String × Value) := []
deriving DecidableEq, Repr

namespace Environment

def get? (env : Environment) (name : String) : Option Value := env.bindings.lookup name

def insertInto (name : String) (value : Value) : List (String × Value) → List (String × Value)
  | [] => [(name, value)]
  | (other, old) :: rest =>
    if other = name then (name, value) :: rest
    else (other, old) :: insertInto name value rest

/-- Replaces the value of a variable that is there already. -/
def insert (env : Environment) (name : String) (value : Value) : Environment :=
  ⟨insertInto name value env.bindings⟩

end Environment

/-! ## Names -/

def declarationWords : List String := ["init", "let"]

def isReserved (name : String) : Bool :=
  (Builtin.ofName? name).isSome || declarationWords.contains name

/-- Whether one insertion, deletion or replacement of a character, or none, turns one text into the
other. -/
def withinOneEdit : List Char → List Char → Bool
  | [], t => t.length ≤ 1
  | s, [] => s.length ≤ 1
  | c :: s, d :: t =>
    if c = d then withinOneEdit s t
    else s == t || s == d :: t || c :: s == t

/-- The reserved names within one edit of `name`, in order. -/
def similarNames (name : String) : List String :=
  let candidates := Builtin.all.map Builtin.name ++ declarationWords
  (candidates.filter fun c => withinOneEdit c.toList name.toList).mergeSort fun s t => s ≤ t

/-! ## Sessions -/

structure Session where
  vars : Environment := {}
  sink : Sink := {}
deriving DecidableEq, Repr

namespace Session

def onSink {ε α : Type} (p : EStateM ε Sink α) : EStateM ε Session α := fun s =>
  match p s.sink with
  | .ok x sink => .ok x { s with sink }
  | .error e sink => .error e { s with sink }

def declare (name : String) (value : Value) : EStateM InvocationError Session Unit := do
  if isReserved name then throw (.reservedName name)
  else modify fun s => { s with vars := s.vars.insert name value }

/-- `init` declares its first argument, a name, with the value of its second. -/
def declareFirst (args : List Value) : EStateM InvocationError Session Value := do
  ofExcept ((Arity.exact 2).check "init" args.length)
  match args with
  | .symbol name :: value :: _ =>
    declare name value
    return value
  | args => throw (.typeMismatch "init" 0 "Symbol" ((args.head?.map Value.typeName).getD "Unit"))

def invoke (name : String) (args : List Value) : EStateM InvocationError Session Value :=
  if name = "init" then declareFirst args
  else
    match Builtin.ofName? name with
    | some b => onSink (b.apply args)
    | none => throw (.undefinedFunction name (similarNames name))

end Session

end MatrixScript
