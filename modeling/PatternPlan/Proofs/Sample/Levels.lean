import Mathlib.Order.MinMax
import PatternPlan.Sample.Generator
import PatternPlan.Surface.Parser.Basic

/-!
# How deep sample programs nest

Reading a pattern takes a level for each construct around it and one for its alternatives, and there
are only so many.  The patterns of a program are as deep as its bytes drive them.

* `Form.levels`, `Function.Fits` — how many levels reading a pattern takes, and the functions for
  which there are enough;
* `Spends` — **what a choice gives for the bytes it spends**, with a rule for each step;
* `spends_pattern` — two bytes are spent on each level of a pattern, a few levels aside;
* `fits_of_short` — **the functions of a short list of bytes fit**;
* `pattern_room` — patterns do not depend on the room that they are given, if it is more than there
  are bytes.
-/

namespace PatternPlan.Sample

/-! ### Levels -/

namespace Form

mutual

/-- How many levels of nesting reading a pattern takes. -/
def levels : Form → Nat
  | leaf _ => 1
  | apply _ p | named p _ => p.levels + 2
  | call _ p => p.levels + 1
  | pair p q | either p q => max p.levels q.levels + 2
  | slice items _ => levelsAll items + 1

/-- How many levels the patterns of an array take inside it. -/
def levelsAll : List Form → Nat
  | [] => 0
  | p :: ps => max (p.levels + 1) (levelsAll ps)

end

theorem levelsAll_le_iff {ps : List Form} {n : Nat} :
    levelsAll ps ≤ n ↔ ∀ p ∈ ps, p.levels + 1 ≤ n := by
  induction ps with
  | nil => simp [levelsAll]
  | cons p ps ih => rw [levelsAll, max_le_iff, ih, List.forall_mem_cons]

end Form

/-- All patterns of a function nest no deeper than the parser goes; the match and the alternatives of
an arm take a level each. -/
def Function.Fits (f : Function) : Prop := ∀ a ∈ f.arms, a.pattern.levels + 2 ≤ Surface.maxNesting

instance : DecidablePred Function.Fits := fun f =>
  inferInstanceAs (Decidable (∀ a ∈ f.arms, a.pattern.levels + 2 ≤ Surface.maxNesting))

/-! ### Spent bytes -/

section Spending

variable {α β : Type} {g : Gen α} {f : α → Gen β}

/-- **What a choice gives for the bytes it spends**: `post a n` holds of the value `a` if `n` bytes
were spent on it. -/
def Spends (g : Gen α) (post : α → Nat → Prop) : Prop :=
  ∀ s, (g s).2.bytes.length ≤ s.bytes.length ∧
    post (g s).1 (s.bytes.length - (g s).2.bytes.length)

namespace Spends

variable {post mid : α → Nat → Prop} {last : β → Nat → Prop}

theorem mono {post' : α → Nat → Prop} (h : Spends g post) (hpost : ∀ a n, post a n → post' a n) :
    Spends g post' := fun s => ⟨(h s).1, hpost _ _ (h s).2⟩

theorem pure {a : α} (h : post a 0) : Spends (Pure.pure a) post := by
  intro s
  refine ⟨le_rfl, ?_⟩
  show post a (s.bytes.length - s.bytes.length)
  rw [Nat.sub_self]
  exact h

/-- **Choices one after the other.** -/
theorem bind (hg : Spends g mid) (hf : ∀ a n, mid a n → Spends (f a) fun b m => last b (n + m)) :
    Spends (g >>= f) last := by
  intro s
  obtain ⟨hle, hmid⟩ := hg s
  obtain ⟨hle', hlast⟩ := hf _ _ hmid (g s).2
  refine ⟨le_trans hle' hle, ?_⟩
  have hsum : s.bytes.length - (f (g s).1 (g s).2).2.bytes.length
      = s.bytes.length - (g s).2.bytes.length
        + ((g s).2.bytes.length - (f (g s).1 (g s).2).2.bytes.length) := by omega
  show last _ (s.bytes.length - (f (g s).1 (g s).2).2.bytes.length)
  rw [hsum]
  exact hlast

end Spends

/-- A choice that is not the first one takes a byte. -/
theorem spends_draw (n : Nat) {hn : 0 < n} : Spends (draw n hn) fun k m => k.val = 0 ∨ 1 ≤ m := by
  rintro ⟨bytes, fresh⟩
  cases bytes with
  | nil => exact ⟨le_rfl, .inl rfl⟩
  | cons b bs => exact ⟨Nat.le_succ _, .inr (by simp [draw])⟩

theorem spends_name : Spends name fun _ _ => True := fun _ => ⟨le_rfl, trivial⟩

/-- Several choices: what holds of each for what it spends holds for what all of them spend. -/
theorem spends_several {P : α → Nat → Prop} (hP : ∀ a m n, m ≤ n → P a m → P a n) (h : Spends g P)
    (n : Nat) : Spends (several g n) fun as m => ∀ a ∈ as, P a m := by
  induction n with
  | zero => exact .pure (by simp)
  | succ n ih =>
    refine .bind h fun a m ha => .bind ih fun as k has => .pure ?_
    rw [List.forall_mem_cons]
    exact ⟨hP a m _ (Nat.le_add_right _ _) ha, fun b hb => hP b k _ (Nat.le_add_left _ _) (has b hb)⟩

/-- A part that may be left out. -/
theorem spends_sometimes {P : α → Nat → Prop} (hP : ∀ a m n, m ≤ n → P a m → P a n) (n : Nat)
    {hn : 0 < n} (h : Spends g P) : Spends (sometimes n g hn) fun o m => ∀ a ∈ o, P a m := by
  refine .bind (spends_draw n) fun k m _ => ?_
  split
  · refine .bind h fun a l ha => .pure ?_
    rintro b ⟨⟩
    exact hP a l _ (Nat.le_add_left _ _) ha
  · exact .pure (by simp)

end Spending

/-! ### Patterns -/

/-- The types whose closed patterns have no patterns inside. -/
def Target.isFlat : Target → Bool
  | int | bool | string => true
  | option | pair | shape | array => false

theorem spends_closed (t : Target) :
    Spends (closed t) fun p _ => p.levels ≤ if t.isFlat then 1 else 3 := by
  cases t with
  | int => exact .bind (spends_draw 10) fun n m _ => .pure le_rfl
  | bool => exact .bind (spends_draw 2) fun k m _ => .pure le_rfl
  | string => exact .bind (spends_draw 3) fun i m _ => .pure le_rfl
  | pair => exact .bind (spends_draw 10) fun n m _ => .pure le_rfl
  | option | shape | array =>
    refine .bind (spends_draw 3) fun k m _ => ?_
    match k with
    | 0 => exact .pure (by decide)
    | 1 => exact .pure (by decide)
    | 2 => exact .pure (by decide)

/-- What the levels of a pattern may exceed the bytes by; every name that is given to a pattern adds
to it. -/
def slack (depth : Nat) (t : Target) : Nat := (if t.isFlat then 2 else 6) + 3 * (maxDepth - depth)

theorem slack_flat {t : Target} (h : t.isFlat = true) (depth : Nat) :
    slack depth t = 2 + 3 * (maxDepth - depth) := by
  rw [slack, if_pos h]

theorem slack_deep {t : Target} (h : t.isFlat = false) (depth : Nat) :
    slack depth t = 6 + 3 * (maxDepth - depth) := by
  rw [slack, if_neg (by rw [h]; decide)]

/-- Two bytes are spent on each level, up to the slack. -/
def Paid (slack : Nat) (p : Form) (n : Nat) : Prop := 2 * p.levels ≤ n + slack

theorem Paid.mono {c : Nat} (p : Form) (m n : Nat) (hmn : m ≤ n) (h : Paid c p m) : Paid c p n :=
  le_trans h (Nat.add_le_add_right hmn c)

theorem paid_leaf (depth : Nat) (t : Target) (l : Leaf) (n : Nat) : Paid (slack depth t) (.leaf l) n := by
  rw [Paid, slack, Form.levels]
  split <;> omega

theorem spends_slice {element : Gen Form} {c : Nat} (h : Spends element (Paid c)) :
    Spends (slice element) (Paid (c + 4)) := by
  refine .bind (spends_draw 3) fun n m _ =>
    .bind (spends_several Paid.mono h n.val) fun items l hitems => ?_
  have hlevels : Form.levelsAll items ≤ (l + c) / 2 + 1 := by
    refine Form.levelsAll_le_iff.mpr fun p hp => ?_
    have hpaid : 2 * p.levels ≤ l + c := hitems p hp
    omega
  have hpaid : ∀ rest more, Paid (c + 4) (.slice items rest) (m + (l + more)) := by
    intro rest more
    rw [Paid, Form.levels]
    omega
  refine .bind (spends_draw 3) fun k j _ => ?_
  match k with
  | 0 => exact .pure (hpaid _ _)
  | 1 => exact .bind spends_name fun x i _ => .pure (hpaid _ _)
  | 2 => exact .pure (hpaid _ _)

/-- A byte was spent before a pattern takes the shape of its type. -/
theorem spends_shaped {inner : Target → Gen Form} {depth : Nat}
    (h : ∀ t, Spends (inner t) (Paid (slack (depth + 1) t))) (t : Target) :
    Spends (shaped inner t) (Paid (slack depth t + 1)) := by
  have hint := slack_flat (t := .int) rfl (depth + 1)
  have hbool := slack_flat (t := .bool) rfl (depth + 1)
  have hleaf : ∀ l n, Paid (slack depth t + 1) (.leaf l) n := fun l n =>
    Nat.le_succ_of_le (paid_leaf depth t l n)
  have hclosed : t.isFlat = true → Spends (closed t) (Paid (slack depth t + 1)) := by
    intro hflat
    refine (spends_closed t).mono fun p n hp => ?_
    rw [if_pos hflat] at hp
    rw [Paid, slack_flat hflat]
    omega
  -- a constructor takes two levels, which the slack of a type with constructors has room for
  have happly : t.isFlat = false → ∀ c p m n, Paid (slack (depth + 1) .int) p n →
      Paid (slack depth t + 1) (.apply c p) (m + n) := by
    intro hdeep c p m n hp
    rw [Paid, hint] at hp
    rw [Paid, Form.levels, slack_deep hdeep]
    omega
  cases t with
  | int =>
    have hcall : ∀ r p m n, 1 ≤ m → Paid (slack (depth + 1) .int) p n →
        Paid (slack depth .int + 1) (.call r p) (m + n) := by
      intro r p m n hm hp
      rw [Paid, hint] at hp
      rw [Paid, Form.levels, slack_flat rfl]
      omega
    refine .bind (spends_draw 5) fun k m hk => ?_
    match k, hk with
    | 0, _ =>
      exact .bind (spends_draw 10) fun _ _ _ => .bind (spends_draw 10) fun _ _ _ => .pure (hleaf _ _)
    | 1, hk =>
      exact .bind (h .int) fun p n hp => .pure (hcall _ p m n (hk.resolve_left (by decide)) hp)
    | 2, hk =>
      exact .bind (h .int) fun p n hp => .pure (hcall _ p m n (hk.resolve_left (by decide)) hp)
    | 3, _ => exact .bind (spends_draw 5) fun _ _ _ => .pure (hleaf _ _)
    | 4, _ => exact (hclosed rfl).mono fun p n hp => hp.mono _ _ _ (Nat.le_add_left _ _)
  | bool => exact hclosed rfl
  | string =>
    refine .bind (spends_draw 3) fun k m _ => ?_
    split
    · exact .pure (hleaf _ _)
    · exact (hclosed rfl).mono fun p n hp => hp.mono _ _ _ (Nat.le_add_left _ _)
  | option =>
    refine .bind (spends_draw 2) fun k m _ => ?_
    split
    · exact .bind (h .int) fun p n hp => .pure (happly rfl _ p m n hp)
    · exact .pure (hleaf _ _)
  | pair =>
    refine .bind (h .int) fun p m hp => .bind (h .bool) fun q n hq => .pure ?_
    rw [Paid, hint] at hp
    rw [Paid, hbool] at hq
    rw [Paid, Form.levels, slack_deep rfl]
    omega
  | shape =>
    refine .bind (spends_draw 3) fun k m _ => ?_
    match k with
    | 0 => exact .bind (h .int) fun p n hp => .pure (happly rfl _ p m n hp)
    | 1 => exact .bind (h .int) fun p n hp => .pure (happly rfl _ p m n hp)
    | 2 => exact .pure (hleaf _ _)
  | array =>
    refine (spends_slice (h .int)).mono fun p n hp => ?_
    rw [Paid, hint] at hp
    rw [Paid, slack_deep rfl]
    omega

/-- **Two bytes are spent on each level of a pattern**, up to the slack. -/
theorem spends_pattern (room depth : Nat) (t : Target) :
    Spends (pattern room depth t) (Paid (slack depth t)) := by
  induction room generalizing depth t with
  | zero => exact .pure (paid_leaf _ _ _ _)
  | succ room ih =>
    refine .bind (spends_draw 8) fun k m hk => ?_
    have hspent : k ≠ 0 → 1 ≤ m := fun hne => hk.resolve_left fun hzero => hne (Fin.ext hzero)
    have hshaped : k ≠ 0 → Spends (shaped (pattern room (depth + 1)) t)
        fun p n => Paid (slack depth t) p (m + n) := by
      intro hne
      have hm := hspent hne
      refine (spends_shaped (fun t => ih (depth + 1) t) t).mono fun p n hp => ?_
      rw [Paid] at hp ⊢
      omega
    split
    · exact .pure (paid_leaf _ _ _ _)
    · exact .bind spends_name fun x n _ => .pure (paid_leaf _ _ _ _)
    · have hm := hspent (by decide)
      split
      · refine .bind (spends_closed t) fun p n hp => .bind (spends_closed t) fun q l hq => .pure ?_
        rw [Paid, Form.levels]
        cases hflat : t.isFlat with
        | true =>
          rw [if_pos hflat] at hp hq
          rw [slack_flat hflat]
          omega
        | false =>
          have hdeep : ¬ t.isFlat = true := by simp [hflat]
          rw [if_neg hdeep] at hp hq
          rw [slack_deep hflat]
          omega
      · exact hshaped (by decide)
    · have hm := hspent (by decide)
      split
      · refine .bind (ih (depth + 1) t) fun p n hp => .bind spends_name fun x l _ => .pure ?_
        rw [Paid, slack] at hp
        rw [Paid, Form.levels, slack]
        omega
      · exact hshaped (by decide)
    · rename_i hne _ _ _
      exact hshaped hne

/-! ### Programs -/

/-- The patterns of the arms of a match are paid for. -/
def PaidArm (a : Arm) (n : Nat) : Prop := Paid 12 a.pattern n

theorem PaidArm.mono (a : Arm) (m n : Nat) (hmn : m ≤ n) (h : PaidArm a m) : PaidArm a n :=
  Paid.mono _ m n hmn h

theorem slack_top (t : Target) : slack 1 t ≤ 12 := by
  rw [slack, maxDepth]
  split <;> omega

theorem spends_newLine : Spends newLine fun _ _ => True :=
  .bind (spends_draw 3) fun _ _ _ => .pure trivial

theorem spends_arm (t : Target) : Spends (arm t) PaidArm := by
  have hget : Spends (get : Gen Source) fun _ _ => True := fun _ => ⟨le_rfl, trivial⟩
  have hguard : Spends (do
      let k ← draw 3
      let n ← draw 3
      return (⟨k = 0, n⟩ : Guard)) fun _ _ => True :=
    .bind (spends_draw 3) fun _ _ _ => .bind (spends_draw 3) fun _ _ _ => .pure trivial
  have hany : ∀ {α : Type} (a : α) (m n : Nat), m ≤ n → True → True := fun _ _ _ _ _ => trivial
  refine .bind spends_newLine fun broken i _ => .bind hget fun s j _ =>
    .bind (spends_pattern (s.bytes.length + 1) 1 t) fun p n hp =>
    .bind (spends_sometimes hany 4 spends_name) fun x k _ =>
    .bind (spends_sometimes hany 4 hguard) fun g l _ => .bind (spends_draw 100) fun b m _ => .pure ?_
  have hslack := slack_top t
  rw [Paid] at hp
  show 2 * p.levels ≤ _ + 12
  omega

theorem spends_fallback : Spends fallback PaidArm := by
  refine .bind spends_newLine fun broken n _ => .pure ?_
  show 2 * Form.levels (.leaf .wildcard) ≤ _ + 12
  rw [Form.levels]
  omega

/-- The patterns of a function are paid for. -/
def PaidFunction (f : Function) (n : Nat) : Prop := ∀ a ∈ f.arms, PaidArm a n

theorem PaidFunction.mono (f : Function) (m n : Nat) (hmn : m ≤ n) (h : PaidFunction f m) :
    PaidFunction f n := fun a ha => (h a ha).mono _ m n hmn

theorem spends_function (number : Nat) : Spends (function number) PaidFunction := by
  refine .bind (spends_draw 7) fun t i _ => .bind (spends_draw 6) fun n j _ =>
    .bind (spends_arm _) fun first k hfirst =>
    .bind (spends_several PaidArm.mono (spends_arm _) n.val) fun more l hmore =>
    .bind (spends_sometimes PaidArm.mono 2 spends_fallback) fun last m hlast => .pure fun a ha => ?_
  rcases List.mem_cons.mp ha with rfl | ha
  · exact hfirst.mono _ k _ (by omega)
  rcases List.mem_append.mp ha with ha | ha
  · exact (hmore a ha).mono _ l _ (by omega)
  · exact (hlast a (Option.mem_toList.mp ha)).mono _ m _ (by omega)

theorem spends_functionsFrom (number n : Nat) :
    Spends (functionsFrom number n) fun fs m => ∀ f ∈ fs, PaidFunction f m := by
  induction n generalizing number with
  | zero => exact .pure (by simp)
  | succ n ih =>
    refine .bind (spends_function number) fun f m hf => .bind (ih (number + 1)) fun fs k hfs => .pure ?_
    rw [List.forall_mem_cons]
    exact ⟨hf.mono _ m _ (Nat.le_add_right _ _), fun g hg => (hfs g hg).mono _ k _ (Nat.le_add_left _ _)⟩

/-- **The functions of a short list of bytes fit.** -/
theorem fits_of_short {bytes : List UInt8} (h : bytes.length ≤ 496) : ∀ f ∈ functions bytes, f.Fits := by
  have hall : Spends (do
      let n ← draw 4
      functionsFrom 0 (n.val + 1)) fun fs m => ∀ f ∈ fs, PaidFunction f m :=
    .bind (spends_draw 4) fun n i _ => (spends_functionsFrom 0 (n.val + 1)).mono
      fun fs m hfs f hf => (hfs f hf).mono _ m _ (Nat.le_add_left _ _)
  intro f hf a ha
  have hpaid : PaidArm a 496 :=
    ((hall ⟨bytes, 0⟩).2 f hf a ha).mono _ _ _ (le_trans (Nat.sub_le _ _) h)
  have hlevels : 2 * a.pattern.levels ≤ 496 + 12 := hpaid
  show a.pattern.levels + 2 ≤ 256
  omega

/-! ### Room -/

/-- Two choices give the same wherever there are at most `n` bytes. -/
def Agree {α : Type} (n : Nat) (g g' : Gen α) : Prop := ∀ s, s.bytes.length ≤ n → g s = g' s

namespace Agree

variable {α β : Type} {n : Nat} {g g' : Gen α} {f f' : α → Gen β}

theorem refl (g : Gen α) : Agree n g g := fun _ _ => rfl

theorem mono {m : Nat} (h : Agree n g g') (hmn : m ≤ n) : Agree m g g' :=
  fun s hs => h s (le_trans hs hmn)

theorem bind {post : α → Nat → Prop} (hg : Agree n g g') (hspends : Spends g post)
    (hf : ∀ a m, m ≤ n → post a m → Agree (n - m) (f a) (f' a)) : Agree n (g >>= f) (g' >>= f') := by
  intro s hs
  obtain ⟨hle, hpost⟩ := hspends s
  show f (g s).1 (g s).2 = f' (g' s).1 (g' s).2
  rw [← hg s hs]
  exact hf _ _ (by omega) hpost (g s).2 (by omega)

/-- The first choice is the same. -/
theorem after {post : α → Nat → Prop} (hspends : Spends g post)
    (hf : ∀ a m, m ≤ n → post a m → Agree (n - m) (f a) (f' a)) : Agree n (g >>= f) (g >>= f') :=
  (refl g).bind hspends hf

end Agree

section Rooms

variable {n c depth : Nat}

theorem agree_several {g g' : Gen Form} (h : Agree n g g') (hspends : Spends g (Paid c)) (k : Nat) :
    Agree n (several g k) (several g' k) := by
  induction k generalizing n with
  | zero => exact .refl _
  | succ k ih =>
    exact h.bind hspends fun a m _ _ => (ih (h.mono (Nat.sub_le n m))).bind
      (spends_several Paid.mono hspends k) fun _ _ _ _ => .refl _

theorem agree_slice {g g' : Gen Form} (h : Agree n g g') (hspends : Spends g (Paid c)) :
    Agree n (slice g) (slice g') :=
  .after (spends_draw 3) fun k m _ _ => (agree_several (h.mono (Nat.sub_le n m)) hspends k.val).bind
    (spends_several Paid.mono hspends k.val) fun _ _ _ _ => .refl _

theorem agree_shaped {inner inner' : Target → Gen Form} (h : ∀ t, Agree n (inner t) (inner' t))
    (hspends : ∀ t, Spends (inner t) (Paid (slack depth t))) (t : Target) :
    Agree n (shaped inner t) (shaped inner' t) := by
  have hwrapped : ∀ (m : Nat) (f : Form → Form),
      Agree (n - m) (inner .int >>= fun p => return f p) (inner' .int >>= fun p => return f p) :=
    fun m f => ((h .int).mono (Nat.sub_le n m)).bind (hspends .int) fun _ _ _ _ => .refl _
  cases t with
  | bool | string => exact .refl _
  | int =>
    refine .after (spends_draw 5) fun k m _ _ => ?_
    match k with
    | 0 | 3 | 4 => exact .refl _
    | 1 | 2 => exact hwrapped m _
  | option =>
    refine .after (spends_draw 2) fun k m _ _ => ?_
    split
    · exact hwrapped m _
    · exact .refl _
  | pair =>
    exact (h .int).bind (hspends .int) fun p m _ _ =>
      ((h .bool).mono (Nat.sub_le n m)).bind (hspends .bool) fun _ _ _ _ => .refl _
  | shape =>
    refine .after (spends_draw 3) fun k m _ _ => ?_
    match k with
    | 0 | 1 => exact hwrapped m _
    | 2 => exact .refl _
  | array => exact agree_slice (h .int) (hspends .int)

theorem agree_pattern {room room' : Nat} (hroom : n < room) (hroom' : n < room') (depth : Nat)
    (t : Target) : Agree n (pattern room depth t) (pattern room' depth t) := by
  induction room generalizing room' n depth t with
  | zero => exact absurd hroom (Nat.not_lt_zero n)
  | succ room ih =>
    obtain ⟨room', rfl⟩ := Nat.exists_eq_succ_of_ne_zero (Nat.ne_zero_of_lt hroom')
    refine .after (spends_draw 8) fun k m hm hk => ?_
    -- a choice other than the first one took a byte, so that there is room for what is left
    have hinner : k ≠ 0 → ∀ depth t, Agree (n - m) (pattern room depth t) (pattern room' depth t) := by
      intro hne depth t
      have hspent := hk.resolve_left fun hzero => hne (Fin.ext hzero)
      exact ih (by omega) (by omega) depth t
    have hshaped : k ≠ 0 → Agree (n - m) (shaped (pattern room (depth + 1)) t)
        (shaped (pattern room' (depth + 1)) t) := fun hne =>
      agree_shaped (hinner hne (depth + 1)) (spends_pattern room (depth + 1)) t
    split
    · exact .refl _
    · exact .refl _
    · split
      · exact .refl _
      · exact hshaped (by decide)
    · split
      · exact (hinner (by decide) (depth + 1) t).bind (spends_pattern _ _ _) fun _ _ _ _ => .refl _
      · exact hshaped (by decide)
    · rename_i hne _ _ _
      exact hshaped hne

end Rooms

/-- **Patterns do not depend on their room**, if it is more than there are bytes. -/
theorem pattern_room {s : Source} {room : Nat} (h : s.bytes.length < room) (depth : Nat) (t : Target) :
    pattern room depth t s = pattern (s.bytes.length + 1) depth t s :=
  agree_pattern h (Nat.lt_succ_self _) depth t s le_rfl

end PatternPlan.Sample
