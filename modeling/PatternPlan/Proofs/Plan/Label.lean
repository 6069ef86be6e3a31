import PatternPlan.Plan.Trace
import PatternPlan.Proofs.Source.Name

/-!
# Labels tell the forms of nodes apart

A plan keeps of a pattern only labels and flags, and a backend finds the form of a node by looking
at the front of its label.  The text after the front is arbitrary: a regex, a quoted constant, a
name.

* `stripFront?_eq_some`, `stripBack?_eq_some` — what it means that a front or a back comes off;
* `differ` — two fronts that disagree in some place, so that no text starts with both;
* `walkOf_of_plain` — **labels are not confused**: a label with a front of its own is walked by its
  flag alone;
* `activeLabel?_call` — the label of a recognizer call gives back its name and kind.
-/

namespace PatternPlan

theorem stripFront?_eq_some {front text rest : List Char} :
    stripFront? front text = some rest ↔ text = front ++ rest := by
  induction front generalizing text with
  | nil => simp [stripFront?]
  | cons c cs ih =>
    cases text with
    | nil => simp [stripFront?]
    | cons d ds =>
      rw [stripFront?]
      split
      · rename_i h
        subst h
        simp [ih]
      · rename_i h
        simp [Ne.symm h]

theorem stripBack?_eq_some {back text rest : List Char} :
    stripBack? back text = some rest ↔ text = rest ++ back := by
  rw [stripBack?, Option.map_eq_some_iff]
  constructor
  · rintro ⟨r, hr, rfl⟩
    have hrev := stripFront?_eq_some.mp hr
    rw [← List.reverse_reverse text, hrev, List.reverse_append, List.reverse_reverse]
  · rintro rfl
    refine ⟨rest.reverse, stripFront?_eq_some.mpr ?_, List.reverse_reverse rest⟩
    rw [List.reverse_append]

theorem hasBack_iff {back text : String} :
    hasBack back text = true ↔ ∃ rest, text.toList = rest ++ back.toList := by
  rw [hasBack, Option.isSome_iff_exists]
  exact exists_congr fun rest => stripBack?_eq_some

/-! ### Fronts -/

/-- Whether two texts disagree in some place that both have. -/
def differ : List Char → List Char → Bool
  | c :: cs, d :: ds => c ≠ d || differ cs ds
  | _, _ => false

theorem stripFront?_of_differ {front other : List Char} (h : differ front other = true)
    (text : List Char) : stripFront? front (other ++ text) = none := by
  induction front generalizing other with
  | nil => simp [differ] at h
  | cons c cs ih =>
    cases other with
    | nil => simp [differ] at h
    | cons d ds =>
      rw [List.cons_append, stripFront?]
      split
      · rename_i heq
        simp only [differ, heq, ne_eq, not_true_eq_false, decide_false, Bool.false_or] at h
        exact ih h
      · rfl

/-- A text that starts in another way is another text. -/
theorem ne_of_differ {front text : String} (h : differ text.toList front.toList = true)
    (body : String) : front ++ body ≠ text := by
  intro heq
  have hnone := stripFront?_of_differ h body.toList
  rw [← String.toList_append, heq] at hnone
  have hsome : stripFront? text.toList text.toList = some [] :=
    stripFront?_eq_some.mpr (List.append_nil _).symm
  rw [hnone] at hsome
  cases hsome

theorem hasFront_of_differ {front other : String} (h : differ front.toList other.toList = true)
    (body : String) : hasFront front (other ++ body) = false := by
  rw [hasFront, String.toList_append, stripFront?_of_differ h]
  rfl

theorem hasFront_append (front body : String) : hasFront front (front ++ body) = true := by
  rw [hasFront, String.toList_append, stripFront?_eq_some.mpr rfl]
  rfl

theorem activeLabel?_of_differ {front : String} (h : differ "active(|".toList front.toList = true)
    (body : String) : activeLabel? (front ++ body) = none := by
  rw [activeLabel?, String.toList_append, stripFront?_of_differ h]

namespace PlanNode

/-- The fronts that a backend looks for. -/
def fronts : List String := ["active(|", "or", "tuple", "record", "binding(", "range("]

/-- **Labels are not confused.**  A label whose front disagrees with all that a backend looks for is
walked by its flag, whatever follows the front. -/
theorem walkOf_of_plain {front : String}
    (h : ∀ s ∈ fronts, differ s.toList front.toList = true) (body : String)
    (alwaysMatches : Bool) :
    walkOf (front ++ body) alwaysMatches = if alwaysMatches then .always else .test := by
  rw [walkOf, activeLabel?_of_differ (h _ (by decide))]
  show (if front ++ body = "or" then _ else _) = _
  have hrecord : (decide (front ++ body = "tuple") || decide (front ++ body = "record")
      || hasFront "binding(" (front ++ body)) = false := by
    rw [decide_eq_false (ne_of_differ (h _ (by decide)) body),
      decide_eq_false (ne_of_differ (h _ (by decide)) body),
      hasFront_of_differ (h _ (by decide)) body]
    rfl
  rw [if_neg (ne_of_differ (h _ (by decide)) body), hrecord,
    hasFront_of_differ (h _ (by decide)) body]
  rfl

theorem walkOf_binding (body : String) (alwaysMatches : Bool) :
    walkOf ("binding(" ++ body) alwaysMatches = .all := by
  rw [walkOf, activeLabel?_of_differ (by decide)]
  show (if "binding(" ++ body = "or" then _ else _) = _
  rw [if_neg (ne_of_differ (by decide) body), hasFront_append, Bool.or_true]
  rfl

end PlanNode

/-! ### Recognizer calls -/

theorem toList_label (kind : RecognizerKind) (name : String) :
    ("active" ++ kind.label name).toList = "active(|".toList ++ (name.toList ++
      match kind with
      | .optional => "|_|)".toList
      | .total => "|)".toList) := by
  cases kind <;> simp [RecognizerKind.label, String.toList_append]

/-- A name without bars does not end a total call as an optional one. -/
theorem stripBack?_total {name : String} (h : '|' ∉ name.toList) :
    stripBack? "|_|)".toList (name.toList ++ "|)".toList) = none := by
  rw [Option.eq_none_iff_forall_ne_some]
  intro rest hrest
  have heq := stripBack?_eq_some.mp hrest
  have hsplit : (rest ++ ['|', '_']) ++ "|)".toList = name.toList ++ "|)".toList := by
    rw [heq]
    simp
  have hname := List.append_cancel_right hsplit
  exact h (hname ▸ by simp)

/-- **A call can be read off its label.** -/
theorem activeLabel?_call (kind : RecognizerKind) {name : String} (h : isIdentifier name = true) :
    activeLabel? ("active" ++ kind.label name) = some (name, kind) := by
  have hne := toList_ne_nil_of_isIdentifier h
  rw [activeLabel?, toList_label, stripFront?_eq_some.mpr rfl]
  obtain ⟨c, cs, hcons⟩ := List.exists_cons_of_ne_nil hne
  have hname : String.ofList (c :: cs) = name := by rw [← hcons, String.ofList_toList]
  cases kind with
  | optional =>
    have hback : stripBack? "|_|)".toList (name.toList ++ "|_|)".toList) = some (c :: cs) := by
      rw [stripBack?_eq_some, hcons]
    simp only [hback, hname]
  | total =>
    have hback : stripBack? "|)".toList (name.toList ++ "|)".toList) = some (c :: cs) := by
      rw [stripBack?_eq_some, hcons]
    simp only [stripBack?_total (not_mem_of_isIdentifier h), hback, hname]

/-- The label of a call ends as that of an optional one exactly if it is one. -/
theorem hasBack_call (kind : RecognizerKind) {name : String} (h : isIdentifier name = true) :
    hasBack "|_|)" ("active" ++ kind.label name) = decide (kind = .optional) := by
  rw [Bool.eq_iff_iff, hasBack_iff, toList_label, decide_eq_true_eq]
  cases kind with
  | optional =>
    refine iff_of_true ⟨"active(|".toList ++ name.toList, ?_⟩ rfl
    rw [List.append_assoc]
  | total =>
    refine iff_of_false ?_ (by simp)
    rintro ⟨rest, hrest⟩
    have hall : "active(|".toList ++ name.toList ++ "|)".toList
        = rest ++ ['|'] ++ ['_'] ++ "|)".toList := by
      simpa using hrest
    have hcancel := List.append_cancel_right hall
    -- the name ends in an underscore, and a bar stands before it: in the name, or before it
    rcases List.eq_nil_or_concat name.toList with hnil | ⟨front, last, hconcat⟩
    · exact toList_ne_nil_of_isIdentifier h hnil
    · rw [hconcat, List.concat_eq_append, ← List.append_assoc] at hcancel
      obtain ⟨hfront, hlast⟩ := List.append_inj' hcancel rfl
      obtain rfl := List.singleton_inj.mp hlast
      rcases List.eq_nil_or_concat front with rfl | ⟨front', last', rfl⟩
      · exact ne_underscore_of_isIdentifier h hconcat
      · rw [List.concat_eq_append, ← List.append_assoc] at hfront
        obtain ⟨-, hbar⟩ := List.append_inj' hfront rfl
        obtain rfl := List.singleton_inj.mp hbar
        exact not_mem_of_isIdentifier h (by simp [hconcat])

end PatternPlan
