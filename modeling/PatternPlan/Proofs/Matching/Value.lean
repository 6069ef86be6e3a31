import PatternPlan.Check.Coverage
import PatternPlan.Proofs.Typed.Pattern
import Mathlib.Algebra.Order.Field.Basic
import Mathlib.Algebra.Order.Ring.Rat
import Mathlib.Data.List.Infix
import Mathlib.Tactic.Positivity

/-!
# Values, and which patterns accept them

What a pattern means, said without the checks that reason about it.

* `Value` — what a match looks at;
* `TypeTable.HasType` — **typing**: the values of a type under a table of declarations.  Nothing is
  known of a value of the unknown type, and a type that nobody declares holds foreign values only;
* `TypeTable.Part`, `TypeTable.Known` — the types that the expansion of a type reaches; a type is
  known if `unknown` is not among them;
* `Literal.below`, `Literal.within` — the order of constants of one type: integers, doubles by their
  rational value, texts;
* `Meaning` — regexes and recognizers as fixed functions of the value they are applied to;
* `Pattern.accepts` — **matching**: record patterns are open, a rest marker stands for any number
  of elements, and a recognizer call hands the payload to its argument;
* `Pattern.accepts_of_irrefutable` — irrefutable patterns accept every value, if the recognizers
  called as total never miss.
-/

namespace PatternPlan

/-! ### Values and their types -/

/-- A value.  A foreign one is a value that no pattern can look into, such as a function. -/
inductive Value where
  | literal (value : Literal)
  | tuple (elements : List Value)
  | record (fields : List (String × Value))
  | variant (name : String) (args : List Value)
  | array (elements : List Value)
  | foreign (id : Nat)
deriving Inhabited

namespace TypeTable

/-- The names of the types that need no declaration and are not parametric. -/
def builtinNames : List String := ["Int", "Float", "String", "Bytes", "Bool", "()"]

/-- No declared type reuses the name of a built-in one. -/
def KeepsBuiltins (types : TypeTable) : Prop := ∀ n ∈ builtinNames, types.has n = false

/-- Whether a type is neither declared nor built from declared ones, so that its values are
foreign. -/
def isForeign (types : TypeTable) : Ty → Bool
  | .con n => !types.has n && (n = "Bytes" || n ∉ builtinNames)
  | .app n _ => (types.sum? n).isNone
  | .func _ _ => true
  | _ => false

mutual

/-- The values of a type. -/
inductive HasType (types : TypeTable) : Value → Ty → Prop
  | literal {t : Ty} {l : Literal} : Ty.ofLiteral l = t → HasType types (.literal l) t
  | tuple {vs : List Value} {ts : List Ty} :
      HasTypes types vs ts → HasType types (.tuple vs) (.tuple ts)
  | record {t : Ty} {n : String} {fs : List (String × Ty)} {gs : List (String × Value)} :
      types.resolve t = .record n fs → gs.map Prod.fst = fs.map Prod.fst →
      HasTypes types (gs.map Prod.snd) (fs.map Prod.snd) → HasType types (.record gs) t
  | variant {t : Ty} {s : SumType} {v : Variant} {vs : List Value} :
      types.sumOf? (types.resolve t) = some s → v ∈ s.variants →
      HasTypes types vs (types.fieldTypes v t) → HasType types (.variant v.name vs) t
  | array {t : Ty} {vs : List Value} :
      HasTypes types vs (List.replicate vs.length t) → HasType types (.array vs) (.array t)
  | foreign {t : Ty} (id : Nat) : types.isForeign t = true → HasType types (.foreign id) t
  | unknown (v : Value) : HasType types v .unknown

/-- Values and types side by side. -/
inductive HasTypes (types : TypeTable) : List Value → List Ty → Prop
  | nil : HasTypes types [] []
  | cons {v : Value} {t : Ty} {vs : List Value} {ts : List Ty} :
      HasType types v t → HasTypes types vs ts → HasTypes types (v :: vs) (t :: ts)

end

/-- The types that the expansion of a type reaches: elements of tuples and arrays, fields of
records, and fields of the constructors of a sum type. -/
inductive Part (types : TypeTable) : Ty → Ty → Prop
  | refl (t : Ty) : Part types t t
  | tuple {ts : List Ty} {t u : Ty} : t ∈ ts → Part types t u → Part types (.tuple ts) u
  | array {t u : Ty} : Part types t u → Part types (.array t) u
  | record {t u : Ty} {n : String} {fs : List (String × Ty)} {f : String × Ty} :
      types.resolve t = .record n fs → f ∈ fs → Part types f.2 u → Part types t u
  | variant {t u w : Ty} {s : SumType} {v : Variant} :
      types.sumOf? (types.resolve t) = some s → v ∈ s.variants → w ∈ types.fieldTypes v t →
      Part types w u → Part types t u

/-- A type in whose expansion nothing is unknown. -/
def Known (types : TypeTable) (t : Ty) : Prop := ¬ types.Part t .unknown

variable {types : TypeTable}

theorem HasTypes.length_eq {vs : List Value} {ts : List Ty} (h : types.HasTypes vs ts) :
    vs.length = ts.length := by
  induction vs generalizing ts with
  | nil => cases h; rfl
  | cons v vs ih =>
    cases h with
    | cons _ hvs => rw [List.length_cons, List.length_cons, ih hvs]

theorem HasTypes.append {vs ws : List Value} {ts us : List Ty} (h : types.HasTypes vs ts)
    (h' : types.HasTypes ws us) : types.HasTypes (vs ++ ws) (ts ++ us) := by
  induction vs generalizing ts with
  | nil => cases h; exact h'
  | cons v vs ih =>
    cases h with
    | cons hv hvs => exact .cons hv (ih hvs)

/-- The first elements of an array have its element type. -/
theorem HasTypes.take_replicate {vs : List Value} {t : Ty} {m : Nat} (k : Nat)
    (h : types.HasTypes vs (List.replicate m t)) (hk : k ≤ m) :
    types.HasTypes (vs.take k) (List.replicate k t) := by
  induction k generalizing vs m with
  | zero => exact .nil
  | succ k ih =>
    obtain ⟨m, rfl⟩ : ∃ m', m = m' + 1 := ⟨m - 1, by omega⟩
    rw [List.replicate_succ] at h
    cases h with
    | cons hv hvs =>
      rw [List.take_succ_cons, List.replicate_succ]
      exact .cons hv (ih hvs (by omega))

theorem Known.ne_unknown {t : Ty} (h : types.Known t) : t ≠ .unknown := by
  intro ht
  rw [ht] at h
  exact h (.refl _)

theorem Known.isUnknown_eq {t : Ty} (h : types.Known t) : t.isUnknown = false := by
  cases t with
  | unknown => exact absurd rfl h.ne_unknown
  | _ => rfl

/-- The expansion of a type stays in every set of types that is closed under expansion. -/
theorem Part.mem_of_closed (S : Ty → Prop) {t u : Ty} (h : types.Part t u) (ht : S t)
    (htuple : ∀ ts, S (.tuple ts) → ∀ u ∈ ts, S u) (harray : ∀ u, S (.array u) → S u)
    (hrecord : ∀ t n fs, S t → types.resolve t = .record n fs → ∀ f ∈ fs, S f.2)
    (hvariant : ∀ t s, S t → types.sumOf? (types.resolve t) = some s → ∀ v ∈ s.variants,
      ∀ u ∈ types.fieldTypes v t, S u) : S u := by
  induction h with
  | refl t => exact ht
  | tuple hmem _ ih => exact ih (htuple _ ht _ hmem)
  | array _ ih => exact ih (harray _ ht)
  | record hr hmem _ ih => exact ih (hrecord _ _ _ ht hr _ hmem)
  | variant hs hv hmem _ ih => exact ih (hvariant _ _ ht hs _ hv _ hmem)

/-- A type is known if it belongs to such a set that does not hold `unknown`. -/
theorem known_of_closed (S : Ty → Prop) {t : Ty} (ht : S t) (hunknown : ¬ S .unknown)
    (htuple : ∀ ts, S (.tuple ts) → ∀ u ∈ ts, S u) (harray : ∀ u, S (.array u) → S u)
    (hrecord : ∀ t n fs, S t → types.resolve t = .record n fs → ∀ f ∈ fs, S f.2)
    (hvariant : ∀ t s, S t → types.sumOf? (types.resolve t) = some s → ∀ v ∈ s.variants,
      ∀ u ∈ types.fieldTypes v t, S u) : types.Known t :=
  fun hpart => hunknown (hpart.mem_of_closed S ht htuple harray hrecord hvariant)

/-! ### Which values a type has -/

theorem KeepsBuiltins.declares_none (hb : types.KeepsBuiltins) {n : String}
    (hn : n ∈ builtinNames) : types.sum? n = none ∧ types.record? n = none := by
  have h := hb n hn
  simpa [has] using h

theorem ofLiteral_mem_builtinNames (l : Literal) : ∃ n ∈ builtinNames, Ty.ofLiteral l = .con n := by
  cases l <;> exact ⟨_, by simp [builtinNames], rfl⟩

/-- A constant has neither a record type nor a sum type. -/
theorem KeepsBuiltins.resolve_ofLiteral (hb : types.KeepsBuiltins) (l : Literal) :
    types.resolve (.ofLiteral l) = .ofLiteral l ∧ types.sumOf? (.ofLiteral l) = none := by
  obtain ⟨n, hn, hl⟩ := ofLiteral_mem_builtinNames l
  obtain ⟨hsum, hrec⟩ := hb.declares_none hn
  rw [hl]
  exact ⟨by simp [resolve, hrec], hsum⟩

/-- A type that is written out as a record or is a sum type is not foreign. -/
theorem not_isForeign_of_record {t : Ty} {n : String} {fs : List (String × Ty)}
    (h : types.resolve t = .record n fs) : types.isForeign t = false := by
  cases t with
  | con c =>
    cases hr : types.record? c with
    | none => simp [resolve, hr] at h
    | some gs => simp [isForeign, has, hr]
  | record => rfl
  | app | tuple | array | func | unknown => simp [resolve] at h

theorem not_isForeign_of_sumOf? {t : Ty} {s : SumType}
    (h : types.sumOf? (types.resolve t) = some s) : types.isForeign t = false := by
  cases t with
  | con c =>
    cases hr : types.record? c with
    | none =>
      have hs : types.sum? c = some s := by simpa [resolve, hr, sumOf?] using h
      simp [isForeign, has, hs]
    | some gs => simp [resolve, hr, sumOf?] at h
  | app c ts =>
    have hs : types.sum? c = some s := h
    simp [isForeign, hs]
  | tuple | array | record | func | unknown => simp [resolve, sumOf?] at h

theorem not_isForeign_ofLiteral (l : Literal) : types.isForeign (.ofLiteral l) = false := by
  cases l <;> simp [isForeign, Ty.ofLiteral, Ty.int, Ty.float, Ty.string, Ty.bool, Ty.unit,
    builtinNames]

/-- A value of the type of a constant is a constant of that type. -/
theorem HasType.literal_inv (hb : types.KeepsBuiltins) {v : Value} {k : Literal}
    (h : types.HasType v (.ofLiteral k)) :
    ∃ l, v = .literal l ∧ Ty.ofLiteral l = .ofLiteral k := by
  obtain ⟨hres, hsum⟩ := hb.resolve_ofLiteral k
  obtain ⟨n, -, hk⟩ := ofLiteral_mem_builtinNames k
  generalize ht : Ty.ofLiteral k = t at h
  cases h with
  | literal hl => exact ⟨_, rfl, hl⟩
  | record hr => rw [← ht, hres, hk] at hr; cases hr
  | variant hs => rw [← ht, hres, hsum] at hs; cases hs
  | foreign id hf => rw [← ht, not_isForeign_ofLiteral] at hf; cases hf
  | tuple | array | unknown => rw [hk] at ht; cases ht

theorem HasType.tuple_inv {v : Value} {ts : List Ty} (h : types.HasType v (.tuple ts)) :
    ∃ vs, v = .tuple vs ∧ types.HasTypes vs ts := by
  cases h with
  | literal hl =>
    obtain ⟨n, -, hn⟩ := ofLiteral_mem_builtinNames ‹_›
    rw [hn] at hl
    cases hl
  | tuple hvs => exact ⟨_, rfl, hvs⟩
  | record hr => cases hr
  | variant hs => cases hs
  | foreign id hf => cases hf

theorem HasType.array_inv {v : Value} {t : Ty} (h : types.HasType v (.array t)) :
    ∃ vs, v = .array vs ∧ types.HasTypes vs (List.replicate vs.length t) := by
  cases h with
  | literal hl =>
    obtain ⟨n, -, hn⟩ := ofLiteral_mem_builtinNames ‹_›
    rw [hn] at hl
    cases hl
  | array hvs => exact ⟨_, rfl, hvs⟩
  | record hr => cases hr
  | variant hs => cases hs
  | foreign id hf => cases hf

theorem HasType.record_inv (hb : types.KeepsBuiltins) {v : Value} {t : Ty} {n : String}
    {fs : List (String × Ty)} (h : types.HasType v t) (ht : types.resolve t = .record n fs) :
    ∃ gs, v = .record gs ∧ gs.map Prod.fst = fs.map Prod.fst ∧
      types.HasTypes (gs.map Prod.snd) (fs.map Prod.snd) := by
  cases h with
  | literal hl =>
    obtain ⟨c, -, hc⟩ := ofLiteral_mem_builtinNames ‹_›
    rw [← hl, (hb.resolve_ofLiteral _).1, hc] at ht
    cases ht
  | record hr hk hvs =>
    rw [ht] at hr
    cases hr
    exact ⟨_, rfl, hk, hvs⟩
  | variant hs => rw [ht] at hs; cases hs
  | foreign id hf => rw [not_isForeign_of_record ht] at hf; cases hf
  | tuple | array | unknown => cases ht

theorem HasType.variant_inv (hb : types.KeepsBuiltins) {v : Value} {t : Ty} {s : SumType}
    (h : types.HasType v t) (ht : types.sumOf? (types.resolve t) = some s) :
    ∃ c ∈ s.variants, ∃ vs, v = .variant c.name vs ∧ types.HasTypes vs (types.fieldTypes c t) := by
  cases h with
  | literal hl =>
    rw [← hl, (hb.resolve_ofLiteral _).1, (hb.resolve_ofLiteral _).2] at ht
    cases ht
  | record hr => rw [hr] at ht; cases ht
  | variant hs hc hvs =>
    rw [ht] at hs
    cases hs
    exact ⟨_, hc, _, rfl, hvs⟩
  | foreign id hf => rw [not_isForeign_of_sumOf? ht] at hf; cases hf
  | tuple | array | unknown => cases ht

end TypeTable

/-! ### The order of constants -/

/-- The number a double stands for. -/
def Double.toRat (d : Double) : ℚ :=
  (if d.negative then -(d.mantissa : ℚ) else d.mantissa) * 2 ^ d.exponent

/-- Whether a constant lies below another one of its type. -/
def Literal.below : Literal → Literal → Bool
  | .int a, .int b => a < b
  | .float a, .float b => a.toRat < b.toRat
  | .text a, .text b => a < b
  | _, _ => false

/-- Whether two constants are the same value of one type; the two zeros are the same. -/
def Literal.equal : Literal → Literal → Bool
  | .float a, .float b => a.toRat = b.toRat
  | a, b => a = b

/-- Whether a constant is another one of its type, or lies below it. -/
def Literal.atMost (a b : Literal) : Bool := a.below b || a.equal b

/-- Whether a constant lies in a range of constants of its own type. -/
def Literal.within (start stop : Option Typed.Bound) (inclusive : Bool) (l : Literal) : Bool :=
  (start.all fun s => s.value.atMost l)
    && stop.all fun e => if inclusive then l.atMost e.value else l.below e.value

/-! ### Matching -/

/-- Regexes and recognizers as functions of the value they are applied to.  A recognizer gives the
payload of a match, or misses. -/
structure Meaning where
  regex : String → Value → Bool
  recognize : String → Value → Option Value

/-- The value of a field, the first one if it is named twice. -/
def Value.field? (name : String) : List (String × Value) → Option Value
  | [] => none
  | (n, v) :: fs => if n = name then some v else field? name fs

namespace Typed.Pattern

mutual

/-- Whether a pattern matches a value. -/
def accepts (m : Meaning) : Pattern → Value → Bool
  | wildcard _, _ | var _ _, _ => true
  | literal _ l, v => match v with
    | .literal w => l.equal w
    | _ => false
  | tuple _ ps, v => match v with
    | .tuple vs => acceptsAll m ps vs
    | _ => false
  | record _ fs _, v => match v with
    | .record gs => acceptsFields m fs gs
    | _ => false
  | construct _ n ps, v => match v with
    | .variant c vs => n = c && acceptsAll m ps vs
    | _ => false
  | binding _ _ _ p, v => accepts m p v
  | or _ ps, v => acceptsAny m ps v
  | slice _ items, v => match v with
    | .array vs => acceptsItems m items vs
    | _ => false
  | range _ start stop inclusive, v => match v with
    | .literal w => w.within start stop inclusive
    | _ => false
  | regex _ s, v => m.regex s v
  | active _ n _ _ none, v => (m.recognize n v).isSome
  | active _ n _ _ (some p), v => match m.recognize n v with
    | some w => accepts m p w
    | none => false

/-- Whether each pattern matches the value in its place. -/
def acceptsAll (m : Meaning) : List Pattern → List Value → Bool
  | [], vs => vs.isEmpty
  | p :: ps, vs => match vs with
    | v :: vs => accepts m p v && acceptsAll m ps vs
    | [] => false

/-- Whether each field is there and its pattern matches. -/
def acceptsFields (m : Meaning) : List (String × Pattern) → List (String × Value) → Bool
  | [], _ => true
  | (n, p) :: fs, gs =>
    (match Value.field? n gs with
      | some v => accepts m p v
      | none => false) && acceptsFields m fs gs

/-- Whether one of the alternatives matches. -/
def acceptsAny (m : Meaning) : List Pattern → Value → Bool
  | [], _ => false
  | p :: ps, v => accepts m p v || acceptsAny m ps v

/-- Whether slice items match elements, a rest marker standing for any number of them. -/
def acceptsItems (m : Meaning) : List (SliceItem Pattern) → List Value → Bool
  | [], vs => vs.isEmpty
  | .element p :: items, vs => match vs with
    | v :: vs => accepts m p v && acceptsItems m items vs
    | [] => false
  | .rest _ _ :: items, vs => vs.tails.any fun ws => acceptsItems m items ws

end

variable {m : Meaning}

theorem acceptsAll_iff {ps : List Pattern} {vs : List Value} :
    acceptsAll m ps vs = true ↔ List.Forall₂ (fun p v => accepts m p v = true) ps vs := by
  induction ps generalizing vs with
  | nil => cases vs <;> simp [acceptsAll]
  | cons p ps ih => cases vs <;> simp [acceptsAll, ih]

theorem acceptsAll_length {ps : List Pattern} {vs : List Value} (h : acceptsAll m ps vs = true) :
    ps.length = vs.length :=
  (acceptsAll_iff.mp h).length_eq

theorem acceptsAny_iff {ps : List Pattern} {v : Value} :
    acceptsAny m ps v = true ↔ ∃ p ∈ ps, accepts m p v = true := by
  induction ps with
  | nil => simp [acceptsAny]
  | cons p ps ih => simp [acceptsAny, ih]

theorem acceptsFields_iff {fs : List (String × Pattern)} {gs : List (String × Value)} :
    acceptsFields m fs gs = true ↔
      ∀ f ∈ fs, ∃ v, Value.field? f.1 gs = some v ∧ accepts m f.2 v = true := by
  induction fs with
  | nil => simp [acceptsFields]
  | cons f fs ih =>
    simp only [acceptsFields, Bool.and_eq_true, ih, List.forall_mem_cons]
    refine and_congr_left fun _ => ?_
    cases Value.field? f.1 gs <;> simp

theorem acceptsItems_of_elements? {items : List (SliceItem Pattern)} {ps : List Pattern}
    (h : elements? items = some ps) (vs : List Value) :
    acceptsItems m items vs = acceptsAll m ps vs := by
  induction items generalizing ps vs with
  | nil =>
    cases h
    rfl
  | cons item items ih =>
    cases item with
    | element p =>
      obtain ⟨qs, hqs, rfl⟩ := Option.map_eq_some_iff.mp h
      cases vs with
      | nil => rfl
      | cons v vs => simp only [acceptsItems, acceptsAll, ih hqs]
    | rest n s => exact absurd h (by simp [elements?])

/-- A slice pattern without a rest marker matches element by element. -/
theorem acceptsItems_closed {items : List (SliceItem Pattern)} {s : SliceShape}
    (h : sliceShape? items = some s) (hs : s.hasRest = false) (vs : List Value) :
    acceptsItems m items vs = acceptsAll m s.front vs := by
  induction items generalizing s vs with
  | nil =>
    cases h
    rfl
  | cons item items ih =>
    cases item with
    | element p =>
      obtain ⟨s', hs', rfl⟩ := Option.map_eq_some_iff.mp h
      cases vs with
      | nil => rfl
      | cons v vs => simp only [acceptsItems, acceptsAll, ih hs' hs]
    | rest n sp =>
      obtain ⟨ps, -, rfl⟩ := Option.map_eq_some_iff.mp h
      exact absurd hs (by simp)

/-- A slice pattern with a rest marker matches the elements at both ends. -/
theorem acceptsItems_open {items : List (SliceItem Pattern)} {s : SliceShape}
    (h : sliceShape? items = some s) (hs : s.hasRest = true) (vs : List Value) :
    acceptsItems m items vs = true ↔ ∃ xs ys zs, vs = xs ++ ys ++ zs ∧
      acceptsAll m s.front xs = true ∧ acceptsAll m s.back zs = true := by
  induction items generalizing s vs with
  | nil =>
    cases h
    exact absurd hs (by simp)
  | cons item items ih =>
    cases item with
    | element p =>
      obtain ⟨s', hs', rfl⟩ := Option.map_eq_some_iff.mp h
      constructor
      · intro hm
        cases vs with
        | nil => exact absurd hm (by simp [acceptsItems])
        | cons v vs =>
          rw [acceptsItems, Bool.and_eq_true] at hm
          obtain ⟨xs, ys, zs, rfl, hx, hz⟩ := (ih hs' hs vs).mp hm.2
          exact ⟨v :: xs, ys, zs, rfl, by simp [acceptsAll, hm.1, hx], hz⟩
      · rintro ⟨xs, ys, zs, rfl, hx, hz⟩
        cases xs with
        | nil => exact absurd hx (by simp [acceptsAll])
        | cons x xs =>
          rw [acceptsAll, Bool.and_eq_true] at hx
          have hrest := (ih hs' hs (xs ++ ys ++ zs)).mpr ⟨xs, ys, zs, rfl, hx.2, hz⟩
          simp only [List.cons_append, acceptsItems, hx.1, hrest, Bool.and_self]
    | rest n sp =>
      obtain ⟨ps, hps, rfl⟩ := Option.map_eq_some_iff.mp h
      rw [acceptsItems, List.any_eq_true]
      constructor
      · rintro ⟨ws, hws, hm⟩
        obtain ⟨ys, rfl⟩ := (List.mem_tails _ _).mp hws
        rw [acceptsItems_of_elements? hps] at hm
        exact ⟨[], ys, ws, rfl, rfl, hm⟩
      · rintro ⟨xs, ys, zs, rfl, hx, hz⟩
        refine ⟨zs, (List.mem_tails _ _).mpr ⟨xs ++ ys, rfl⟩, ?_⟩
        rw [acceptsItems_of_elements? hps]
        exact hz

/-! ### Irrefutable patterns -/

/-- A call of a recognizer as a total one is a call of a recognizer that never misses. -/
def NeverMisses (m : Meaning) : Pattern → Prop
  | active _ n .total false _ => ∀ v, (m.recognize n v).isSome = true
  | _ => True

theorem allIrrefutable_iff {ps : List Pattern} :
    allIrrefutable ps = true ↔ ∀ p ∈ ps, irrefutable p = true := by
  induction ps with
  | nil => simp [allIrrefutable]
  | cons p ps ih => simp [allIrrefutable, ih]

/-- **Irrefutable patterns accept every value**, if the total calls in them never miss. -/
theorem accepts_of_irrefutable {p : Pattern} (hp : irrefutable p = true)
    (ht : ∀ q ∈ p.nodes, NeverMisses m q) (v : Value) : accepts m p v = true := by
  induction p using Pattern.induction generalizing v with
  | wildcard i => rfl
  | var i n => rfl
  | binding i n viaAt p ih =>
    exact ih hp (fun q hq => ht q (List.mem_cons_of_mem _ hq)) v
  | or i ps ih =>
    simp only [irrefutable, Bool.and_eq_true, Bool.not_eq_true', List.isEmpty_eq_false_iff] at hp
    obtain ⟨p, hmem⟩ := List.exists_mem_of_ne_nil ps hp.1
    refine acceptsAny_iff.mpr ⟨p, hmem, ih p hmem (allIrrefutable_iff.mp hp.2 p hmem) ?_ v⟩
    exact fun q hq => ht q (List.mem_cons_of_mem _ (mem_nodesOfList.mpr ⟨p, hmem, hq⟩))
  | call i n k u =>
    simp only [irrefutable, Bool.and_eq_true, decide_eq_true_eq, Bool.not_eq_true'] at hp
    obtain ⟨rfl, rfl⟩ := hp
    exact ht _ (self_mem_nodes _) v
  | callWith i n k u p ih =>
    simp only [irrefutable, Bool.and_eq_true, decide_eq_true_eq, Bool.not_eq_true'] at hp
    obtain ⟨⟨rfl, rfl⟩, hp⟩ := hp
    obtain ⟨w, hw⟩ := Option.isSome_iff_exists.mp (ht _ (self_mem_nodes _) v)
    simp only [accepts, hw]
    exact ih hp (fun q hq => ht q (List.mem_cons_of_mem _ hq)) w
  | literal | tuple | record | construct | slice | range | regex =>
    simp [irrefutable] at hp

end Typed.Pattern

end PatternPlan
