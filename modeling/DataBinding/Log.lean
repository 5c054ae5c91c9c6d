import DataBinding.Error

/-!
# Log

Operations report what they do as events.  An event is data: its level and its wording are functions
of it, and no operation can read the events reported before, so what is reported has no influence on
what is computed.

`Logged α` is a value of type `α` together with the events reported on the way to it.
-/

namespace DataBinding

/-! ### Levels -/

/-- How important an event is, the most important first. -/
inductive Level where
  | error
  | warn
  | info
  | debug
  | trace
deriving DecidableEq, Repr

namespace Level

def name : Level → String
  | error => "error"
  | warn => "warn"
  | info => "info"
  | debug => "debug"
  | trace => "trace"

def rank : Level → Nat
  | error => 1
  | warn => 2
  | info => 3
  | debug => 4
  | trace => 5

/-- The digit of the level's colour in a terminal. -/
def color : Level → Nat
  | error => 1
  | warn => 3
  | info => 4
  | debug => 5
  | trace => 2

/-- Whether events of a level are shown under a threshold; without a threshold none are. -/
def shownUnder (l : Level) : Option Level → Bool
  | none => false
  | some threshold => l.rank ≤ threshold.rank

/-- A message on a line of its own, behind its level. -/
def line (l : Level) (colored : Bool) (message : String) : String :=
  if colored then s!"\x1b[3{l.color}m{l.name}:\x1b[0m {message}" else s!"{l.name}: {message}"

end Level

/-! ### Events -/

/-- What an operation reports. -/
inductive Event where
  /-- A new node was stored. -/
  | interned (id : NodeId) (key : String)
  /-- A node with the key was there already. -/
  | reused (id : NodeId) (key : String)
  /-- An identifier was declared again with another type. -/
  | redeclared (name ty declared : String)
  /-- A type was known already. -/
  | typeKnown (id : NodeId) (ty : Ty)
  /-- A node is to be made equal to a value of the destination, if there is such a value. -/
  | inverting (node : Node) (value : Option Node)
  | compiled (node : Node) (ty : Ty) (code : String)
  | compiledInverse (node : Node) (code : String)
  /-- A target cannot take part in a two-way binding. -/
  | refused (expr : String) (error : BindingError)
  | checked (targets failed : Nat)
  | note (level : Level) (message : String)

namespace Event

def level : Event → Level
  | interned _ _ => .debug
  | reused _ _ => .trace
  | redeclared _ _ _ => .warn
  | typeKnown _ _ => .trace
  | inverting _ _ => .debug
  | compiled _ _ _ => .debug
  | compiledInverse _ _ => .debug
  | refused _ _ => .warn
  | checked _ _ => .info
  | note level _ => level

/-- The wording of an event; an event about a value that does not exist has none. -/
def message? : Event → Option String
  | interned id key => some s!"intern {id.text} = {key}"
  | reused id key => some s!"intern hit {id.text} for {key}"
  | redeclared name ty declared =>
    some s!"identifier `{name}` redeclared as {ty}, keeping {declared}"
  | typeKnown id ty => some s!"type of {id.text} cached: {ty}"
  | inverting node value => value.map fun v => s!"invert {node.text} = {v.text}"
  | compiled node ty code => some s!"compiled {node.text} : {ty} => {code}"
  | compiledInverse node code => some s!"inverse of {node.text} => {code}"
  | refused expr error => some s!"{expr}: {error.message}"
  | checked targets failed => some s!"checked {targets} two-way expressions, {failed} failed"
  | note _ message => some message

/-- The lines of the events that a threshold lets through. -/
def lines? (threshold : Option Level) (colored : Bool) (events : List Event) :
    Option (List String) :=
  (events.filter (·.level.shownUnder threshold)).mapM fun e =>
    e.message?.map (e.level.line colored)

end Event

/-! ### Values with events -/

/-- A value and the events reported on the way to it. -/
structure Logged (α : Type) where
  value : α
  events : List Event

namespace Logged

instance : Monad Logged where
  pure a := ⟨a, []⟩
  bind x f :=
    let y := f x.value
    ⟨y.value, x.events ++ y.events⟩

variable {α β : Type}

@[simp] theorem value_pure (a : α) : (pure a : Logged α).value = a := rfl

@[simp] theorem events_pure (a : α) : (pure a : Logged α).events = [] := rfl

@[simp] theorem value_bind (x : Logged α) (f : α → Logged β) :
    (x >>= f).value = (f x.value).value := rfl

@[simp] theorem events_bind (x : Logged α) (f : α → Logged β) :
    (x >>= f).events = x.events ++ (f x.value).events := rfl

@[simp] theorem value_map (f : α → β) (x : Logged α) : (f <$> x).value = f x.value := rfl

@[simp] theorem events_map (f : α → β) (x : Logged α) : (f <$> x).events = x.events := by
  simp [Functor.map]

instance : LawfulMonad Logged :=
  LawfulMonad.mk' Logged (fun ⟨_, _⟩ => by simp [Functor.map]) (fun _ _ => by simp [bind, pure])
    (fun _ _ _ => by simp [bind])

/-- Reports an event. -/
def emit (e : Event) : Logged Unit := ⟨(), [e]⟩

end Logged

end DataBinding
