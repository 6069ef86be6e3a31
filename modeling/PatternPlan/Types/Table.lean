import PatternPlan.Types.Ty

/-!
# Type tables

The nominal types visible to a file: the built-in `Option` and `Result`, and what it declares.

* `Variant`, `SumType` — a sum type and its constructors;
* `TypeTable` — the declared types, with lookups by type name and by constructor name;
* `TypeTable.declareSum`, `TypeTable.declareRecord` — declarations, refused with a cause when a
  name is taken;
* `TypeTable.fieldTypes` — the field types of a constructor at an instance of its type.
-/

namespace PatternPlan

/-- A constructor of a sum type, with the name of that type. -/
structure Variant where
  name : String
  fields : List Ty
  owner : String
deriving Inhabited

/-- A closed set of constructors. -/
structure SumType where
  name : String
  params : List String := []
  variants : List Variant
deriving Inhabited

/-- Why a declaration is refused. -/
inductive DeclareError where
  | typeTaken (name : String)
  | constructorTaken (name owner : String)
deriving DecidableEq

def DeclareError.message : DeclareError → String
  | typeTaken n => "type " ++ n ++ " already declared"
  | constructorTaken n owner => "constructor " ++ n ++ " already declared by " ++ owner

/-- The declared types.  Constructors stand newest first, so that a later one of the same name in
one declaration hides an earlier one. -/
structure TypeTable where
  sums : List SumType := []
  records : List (String × List (String × Ty)) := []
  constructors : List Variant := []
  names : List String := []
deriving Inhabited

namespace TypeTable

def sum? (t : TypeTable) (name : String) : Option SumType := t.sums.find? fun s => s.name = name

/-- The fields of a declared record type. -/
def record? (t : TypeTable) (name : String) : Option (List (String × Ty)) :=
  (t.records.find? fun r => r.1 = name).map (·.2)

def constructor? (t : TypeTable) (name : String) : Option Variant :=
  t.constructors.find? fun v => v.name = name

def has (t : TypeTable) (name : String) : Bool := (t.sum? name).isSome || (t.record? name).isSome

/-- The constructor that an earlier declaration has taken, if there is one. -/
def taken? (t : TypeTable) (vs : List Variant) : Option Variant :=
  vs.findSome? fun v => t.constructor? v.name

/-- Declares a sum type; its constructors become its own. -/
def declareSum (t : TypeTable) (s : SumType) : Except DeclareError TypeTable :=
  if t.has s.name then .error (.typeTaken s.name)
  else match t.taken? s.variants with
    | some v => .error (.constructorTaken v.name v.owner)
    | none =>
      let vs := s.variants.map fun v => { v with owner := s.name }
      .ok { t with
        sums := t.sums ++ [{ s with variants := vs }]
        constructors := vs.reverse ++ t.constructors
        names := t.names ++ [s.name] }

/-- Declares a record type. -/
def declareRecord (t : TypeTable) (name : String) (fields : List (String × Ty)) :
    Except DeclareError TypeTable :=
  if t.has name then .error (.typeTaken name)
  else .ok { t with records := t.records ++ [(name, fields)], names := t.names ++ [name] }

/-- A constructor of a type that is being declared. -/
def variant (name : String) (fields : List Ty) : Variant := ⟨name, fields, ""⟩

/-- The options: `Some(T)` and `None`. -/
def optionType : SumType :=
  ⟨"Option", ["T"], [variant "Some" [.con "T"], variant "None" []]⟩

/-- The results: `Ok(T)` and `Err(E)`. -/
def resultType : SumType :=
  ⟨"Result", ["T", "E"], [variant "Ok" [.con "T"], variant "Err" [.con "E"]]⟩

/-- The table in which only the built-in types are declared. -/
def builtin : TypeTable :=
  match (({} : TypeTable).declareSum optionType).bind fun t => t.declareSum resultType with
  | .ok t => t
  | .error _ => {}

/-- The sum type that a type is an instance of. -/
def sumOf? (t : TypeTable) : Ty → Option SumType
  | .con n => t.sum? n
  | .app n _ => t.sum? n
  | _ => none

/-- A declared record type written out; other types stay as they are. -/
def resolve (t : TypeTable) : Ty → Ty
  | .con n => match t.record? n with
    | some fs => .record n fs
    | none => .con n
  | u => u

/-- The fields of a type that is a record. -/
def recordFields (t : TypeTable) (u : Ty) : List (String × Ty) :=
  match t.resolve u with
  | .record _ fs => fs
  | _ => []

mutual

/-- A field type with the type parameters of its owner replaced; a parameter without an argument
becomes unknown. -/
def substitute (args : List (String × Ty)) (params : List String) : Ty → Ty
  | .con n => match Ty.field? n args with
    | some t => t
    | none => if n ∈ params then .unknown else .con n
  | .app n ts => .app n (substituteAll args params ts)
  | .tuple ts => .tuple (substituteAll args params ts)
  | .array t => .array (substitute args params t)
  | t => t

def substituteAll (args : List (String × Ty)) (params : List String) : List Ty → List Ty
  | [] => []
  | t :: ts => substitute args params t :: substituteAll args params ts

end

/-- The arguments that an instance gives to the parameters of a sum type.  A repeated parameter
takes the last argument. -/
def arguments (s : SumType) : Ty → List (String × Ty)
  | .app n ts => if n = s.name then (s.params.zip ts).reverse else []
  | _ => []

/-- The field types of a constructor, matched against a value of type `u`. -/
def fieldTypes (t : TypeTable) (v : Variant) (u : Ty) : List Ty :=
  match t.sum? v.owner with
  | some s => substituteAll (arguments s u) s.params v.fields
  | none => v.fields

/-- The type a constructor belongs to, its parameters unknown. -/
def ownerType (t : TypeTable) (v : Variant) : Ty :=
  match t.sum? v.owner with
  | some s => if s.params.isEmpty then .con v.owner else .app v.owner (s.params.map fun _ => .unknown)
  | none => .con v.owner

end TypeTable

end PatternPlan
