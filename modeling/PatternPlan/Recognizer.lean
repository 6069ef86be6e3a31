import PatternPlan.Text.Quoted
import PatternPlan.Number.Decimal

/-!
# Recognizers

How a recognizer is invoked from a pattern, and how its result drives control flow.

* `RecognizerKind` — a total recognizer always matches, an optional one may miss;
* `JumpTarget` — where control goes after a miss: `nextArm` resumes with the next arm against the
  target already evaluated;
* `Carrier` — the shape a recognizer's body must produce;
* `Invocation` — one call, from invoked to matched or missed.
-/

namespace PatternPlan

/-- Whether a recognizer always succeeds, or may miss. -/
inductive RecognizerKind where
  | total
  | optional
deriving DecidableEq, Inhabited

/-- Where control goes after a miss. -/
inductive JumpTarget where
  | nextArm
deriving DecidableEq, Inhabited

namespace JumpTarget

/-- The number a target is stored under. -/
def code : JumpTarget → Int
  | nextArm => 1

/-- The name of a target. -/
def name : JumpTarget → String
  | nextArm => "next_arm"

/-- The target stored under a number. -/
def ofCode? (n : Int) : Option JumpTarget := if n = 1 then some nextArm else none

/-- A stored number as text: the name of the target, or the number itself if there is none. -/
def describe (n : Int) : String :=
  match ofCode? n with
  | some j => j.name
  | none => "JumpTarget(" ++ decimal n ++ ")"

/-- The target with a name. -/
def ofName? (s : String) : Option JumpTarget := if s = "next_arm" then some nextArm else none

end JumpTarget

/-- The shape of what a recognizer's body produces: the payload itself, or an option of it. -/
inductive Carrier where
  | value
  | optionLike
deriving DecidableEq, Inhabited

namespace Carrier

/-- How messages name a carrier. -/
def description : Carrier → String
  | value => "payload"
  | optionLike => "Option<payload>"

/-- The stored name of a carrier. -/
def name : Carrier → String
  | value => "value"
  | optionLike => "option_like"

/-- The carrier with a stored name. -/
def ofName? (s : String) : Option Carrier :=
  match s with
  | "value" => some value
  | "option_like" => some optionLike
  | _ => none

end Carrier

namespace RecognizerKind

/-- The stored name of a kind. -/
def name : RecognizerKind → String
  | total => "total"
  | optional => "partial"

/-- The kind with a stored name. -/
def ofName? (s : String) : Option RecognizerKind :=
  match s with
  | "total" => some total
  | "partial" => some optional
  | _ => none

/-- The name of a recognizer as it is called. -/
def label (kind : RecognizerKind) (name : String) : String :=
  match kind with
  | .optional => "(|" ++ name ++ "|_|)"
  | .total => "(|" ++ name ++ "|)"

/-- The jump taken on a miss; a total recognizer has none. -/
def missTarget : RecognizerKind → Option JumpTarget
  | total => none
  | optional => some .nextArm

/-- Whether a recognizer of the kind may miss. -/
def mayMiss (kind : RecognizerKind) : Bool := kind = optional

/-- What a recognizer of the kind must produce. -/
def carrier : RecognizerKind → Carrier
  | total => .value
  | optional => .optionLike

end RecognizerKind

/-- A stored name that stands for nothing. -/
inductive UnknownName where
  | kind (name : String)
  | carrier (name : String)
  | target (name : String)
deriving DecidableEq

def UnknownName.message : UnknownName → String
  | kind n => "unknown active pattern kind " ++ quoted n
  | carrier n => "unknown return carrier " ++ quoted n
  | target n => "unknown jump target " ++ quoted n

/-- The kind with a stored name, or the refusal of that name. -/
def RecognizerKind.ofName (s : String) : Except UnknownName RecognizerKind :=
  ((ofName? s).map .ok).getD (.error (.kind s))

/-- The carrier with a stored name, or the refusal of that name. -/
def Carrier.ofName (s : String) : Except UnknownName Carrier :=
  ((ofName? s).map .ok).getD (.error (.carrier s))

/-- The target with a name, or the refusal of that name. -/
def JumpTarget.ofName (s : String) : Except UnknownName JumpTarget :=
  ((ofName? s).map .ok).getD (.error (.target s))

/-! ### Labels -/

/-- Drops `front` from the front of a text that starts with it. -/
def stripFront? : (front text : List Char) → Option (List Char)
  | [], text => some text
  | _ :: _, [] => none
  | c :: cs, d :: ds => if c = d then stripFront? cs ds else none

/-- Drops `back` from the end of a text that ends with it. -/
def stripBack? (back text : List Char) : Option (List Char) :=
  (stripFront? back.reverse text.reverse).map List.reverse

/-! ### Invocations -/

/-- A step of one invocation. -/
inductive InvocationState where
  | invoked | matched | missed
deriving DecidableEq, Inhabited

def InvocationState.name : InvocationState → String
  | invoked => "invoked"
  | matched => "matched"
  | missed => "missed"

/-- One call of a recognizer and the payload it was resolved with. -/
structure Invocation (α : Type) where
  name : String
  kind : RecognizerKind
  state : InvocationState := .invoked
  payload : Option α := none

namespace Invocation

variable {α : Type}

/-- Resolves an invocation once: a total recognizer matches whatever is `present`.  The result is
the jump to take, `none` when matching goes on; an invocation that was resolved before is refused
with a message. -/
def resolve (i : Invocation α) (present : Bool) (payload : α) :
    Except String (Option JumpTarget) × Invocation α :=
  match i.state with
  | .invoked =>
    if i.kind = .total || present then
      (.ok none, { i with state := .matched, payload := some payload })
    else (.ok i.kind.missTarget, { i with state := .missed })
  | s => (.error ("active pattern " ++ i.name ++ " already " ++ s.name), i)

end Invocation

end PatternPlan
