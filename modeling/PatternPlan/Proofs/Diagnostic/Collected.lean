import Mathlib.Data.List.Induction
import Mathlib.Data.List.Nodup
import Mathlib.Data.Prod.Lex
import Mathlib.Data.String.Basic
import PatternPlan.Diagnostic.Basic

/-!
# Collected diagnostics

A collector after any number of calls, as it is told by the diagnostics it was given.

* `Diagnostic.gather` — a diagnostic with the new notes of later ones;
* `Diagnostic.Gains` — two diagnostics that differ in nothing but added notes;
* `Collector.filter_insert_single`, `filter_insert_here`, `kept_insert` — **one call**: what it does to
  the diagnostics that are never merged, to those of one class at one place, and to the list;
* `collect_single`, `collect_place`, `collect_firsts`, `collect_append` — any number of calls;
* `Diagnostic.key`, `precedes_iff` — reading order as an order of keys;
* `collector_keeps` — **nothing that is added is lost**, neither in the list, nor in reading order, nor
  under a policy, but for the classes that this drops.
-/

namespace PatternPlan

namespace Diagnostic

/-! ### Notes -/

/-- The notes of later diagnostics that a diagnostic does not have, each once. -/
def newNotes (d : Diagnostic) (later : List Diagnostic) : List String :=
  ((later.flatMap notes).filter fun n => n ∉ d.notes).eraseDups

/-- A diagnostic with the new notes of later ones behind its own. -/
def gather (d : Diagnostic) (later : List Diagnostic) : Diagnostic :=
  { d with notes := d.notes ++ d.newNotes later }

/-- Nothing but notes has been added, behind those that were there. -/
def Gains (d e : Diagnostic) : Prop := ∃ new, e = { d with notes := d.notes ++ new }

theorem Gains.refl (d : Diagnostic) : d.Gains d := ⟨[], by rw [List.append_nil]⟩

theorem Gains.trans {d e f : Diagnostic} (hde : d.Gains e) (hef : e.Gains f) : d.Gains f := by
  obtain ⟨xs, rfl⟩ := hde
  obtain ⟨ys, rfl⟩ := hef
  exact ⟨xs ++ ys, by rw [List.append_assoc]⟩

/-- Each diagnostic of a list is still at its place in another list, and has gained notes at most. -/
def Kept (ds es : List Diagnostic) : Prop :=
  ∀ (i : Nat) (d : Diagnostic), ds[i]? = some d → ∃ e, es[i]? = some e ∧ d.Gains e

theorem Kept.refl (ds : List Diagnostic) : Kept ds ds := fun _ d hd => ⟨d, hd, .refl d⟩

theorem Kept.trans {ds es fs : List Diagnostic} (hde : Kept ds es) (hef : Kept es fs) :
    Kept ds fs := by
  intro i d hd
  obtain ⟨e, he, hgains⟩ := hde i d hd
  obtain ⟨f, hf, hgains'⟩ := hef i e he
  exact ⟨f, hf, hgains.trans hgains'⟩

theorem Kept.cons {d e : Diagnostic} {ds es : List Diagnostic} (hgains : d.Gains e)
    (h : Kept ds es) : Kept (d :: ds) (e :: es) := by
  intro i x hx
  cases i with
  | zero =>
    cases hx
    exact ⟨e, rfl, hgains⟩
  | succ i => exact h i x hx

/-- The same diagnostic may be put behind both lists. -/
theorem Kept.concat {ds es : List Diagnostic} (h : Kept ds es) (hlength : es.length = ds.length)
    (d : Diagnostic) : Kept (ds ++ [d]) (es ++ [d]) := by
  intro i x hx
  rw [List.getElem?_append] at hx ⊢
  split at hx
  · rename_i hi
    obtain ⟨e, he, hgains⟩ := h i x hx
    exact ⟨e, by rwa [if_pos (hlength ▸ hi)], hgains⟩
  · rename_i hi
    exact ⟨x, by rwa [if_neg (hlength ▸ hi), hlength], .refl x⟩

end Diagnostic

namespace Collector

open Diagnostic

/-- Notes that are added one by one. -/
theorem foldl_notes (new old : List String) :
    new.foldl (fun ns n => if n ∈ ns then ns else ns ++ [n]) old =
      old ++ (new.filter fun n => n ∉ old).eraseDups := by
  induction new generalizing old with
  | nil => exact (List.append_nil old).symm
  | cons n new ih =>
    rw [List.foldl_cons, ih]
    by_cases hn : n ∈ old
    · rw [if_pos hn, List.filter_cons_of_neg (by simpa using hn)]
    · have hrest : (new.filter fun m => m ∉ old ++ [n]) =
          (new.filter fun m => m ∉ old).filter fun m => !m == n := by
        rw [List.filter_filter]
        refine List.filter_congr fun m _ => Bool.eq_iff_iff.mpr ?_
        simp [not_or, and_comm]
      rw [if_neg hn, List.filter_cons_of_pos (by simpa using hn), List.eraseDups_cons, hrest,
        List.append_assoc, List.singleton_append]

theorem gather_eq_addNotes (d : Diagnostic) (later : List Diagnostic) :
    d.gather later = addNotes d (later.flatMap notes) := by
  rw [addNotes, foldl_notes]
  rfl

theorem gather_nil (d : Diagnostic) : d.gather [] = d := gather_eq_addNotes d []

/-- One more diagnostic adds its notes. -/
theorem addNotes_gather (d x : Diagnostic) (later : List Diagnostic) :
    addNotes (d.gather later) x.notes = d.gather (later ++ [x]) := by
  rw [gather_eq_addNotes, gather_eq_addNotes, List.flatMap_append, List.flatMap_singleton, addNotes,
    addNotes, addNotes, List.foldl_append]

theorem gains_addNotes (d : Diagnostic) (ns : List String) : d.Gains (addNotes d ns) := by
  rw [addNotes, foldl_notes]
  exact ⟨_, rfl⟩

/-! ### Places -/

/-- Whether a diagnostic is of a class and at a place. -/
def atPlace (k : Code) (start stop : Int) (d : Diagnostic) : Bool :=
  d.code = k && d.span.start = start && d.span.stop = stop

theorem atPlace_iff {k : Code} {start stop : Int} {d : Diagnostic} :
    atPlace k start stop d = true ↔ d.code = k ∧ d.span.start = start ∧ d.span.stop = stop := by
  simp [atPlace, and_assoc]

/-- A diagnostic is merged with those of its class at its place, if the class is mergeable. -/
theorem merges_iff {e d : Diagnostic} : merges e d = true ↔
    d.code.mergeable = true ∧ atPlace d.code d.span.start d.span.stop e = true := by
  rw [atPlace_iff]
  simp only [merges, Bool.and_eq_true, decide_eq_true_eq]
  constructor
  · rintro ⟨⟨⟨hmergeable, hcode⟩, hstart⟩, hstop⟩
    exact ⟨hcode ▸ hmergeable, hcode, hstart, hstop⟩
  · rintro ⟨hmergeable, hcode, hstart, hstop⟩
    exact ⟨⟨⟨hcode ▸ hmergeable, hcode⟩, hstart⟩, hstop⟩

/-- Only mergeable diagnostics are merged. -/
theorem mergeable_of_merges {e d : Diagnostic} (h : merges e d = true) :
    e.code.mergeable = true ∧ d.code.mergeable = true := by
  obtain ⟨hmergeable, hplace⟩ := merges_iff.mp h
  exact ⟨(atPlace_iff.mp hplace).1 ▸ hmergeable, hmergeable⟩

theorem merges_comm (e d : Diagnostic) : merges e d = merges d e := by
  rw [Bool.eq_iff_iff, merges_iff, merges_iff, atPlace_iff, atPlace_iff]
  constructor <;>
  · rintro ⟨hmergeable, hcode, hstart, hstop⟩
    exact ⟨hcode ▸ hmergeable, hcode.symm, hstart.symm, hstop.symm⟩

theorem merges_trans {e d f : Diagnostic} (hed : merges e d = true) (hdf : merges d f = true) :
    merges e f = true := by
  rw [merges_iff, atPlace_iff] at *
  obtain ⟨-, hcode, hstart, hstop⟩ := hed
  obtain ⟨hmergeable, hcode', hstart', hstop'⟩ := hdf
  exact ⟨hmergeable, hcode.trans hcode', hstart.trans hstart', hstop.trans hstop'⟩

/-! ### One call -/

variable {d : Diagnostic} {es : List Diagnostic}

/-- What is merged with nothing stands at the end. -/
theorem insert_of_forall (h : ∀ e ∈ es, merges e d = false) : insert d es = es ++ [d] := by
  induction es with
  | nil => rfl
  | cons e es ih =>
    obtain ⟨he, hes⟩ := List.forall_mem_cons.mp h
    rw [insert, he, if_neg Bool.false_ne_true, ih hes, List.cons_append]

/-- **What was there keeps its place**, and gains notes at most. -/
theorem kept_insert (d : Diagnostic) (es : List Diagnostic) : Kept es (insert d es) := by
  induction es with
  | nil => exact fun i x hx => nomatch hx
  | cons e es ih =>
    rw [insert]
    split
    · exact .cons (gains_addNotes e _) (.refl es)
    · exact .cons (.refl e) ih

/-- What is merged takes no place of its own. -/
theorem length_insert (h : ∃ e ∈ es, merges e d = true) : (insert d es).length = es.length := by
  induction es with
  | nil => obtain ⟨e, he, -⟩ := h; cases he
  | cons e es ih =>
    rw [insert]
    by_cases he : merges e d = true
    · rw [if_pos he]
      rfl
    · obtain ⟨x, hx, hmerges⟩ := h
      have hrest : ∃ x ∈ es, merges x d = true := by
        rcases List.mem_cons.mp hx with rfl | hx
        · exact absurd hmerges he
        · exact ⟨x, hx, hmerges⟩
      rw [if_neg he, List.length_cons, List.length_cons, ih hrest]

/-- **A diagnostic that is never merged** stands behind the others of its sort, and leaves them as they
are. -/
theorem filter_insert_single (d : Diagnostic) (es : List Diagnostic) :
    (insert d es).filter (fun e => !e.code.mergeable) =
      (es ++ [d]).filter fun e => !e.code.mergeable := by
  induction es with
  | nil => rfl
  | cons e es ih =>
    rw [insert]
    by_cases he : merges e d = true
    · obtain ⟨hmergeable, hd⟩ := mergeable_of_merges he
      have hkept : (addNotes e d.notes).code.mergeable = true := hmergeable
      rw [if_pos he, List.filter_cons_of_neg (by simp [hkept]), List.cons_append,
        List.filter_cons_of_neg (by simp [hmergeable]), List.filter_append,
        List.filter_cons_of_neg (by simp [hd]), List.filter_nil, List.append_nil]
    · rw [if_neg he, List.cons_append, List.filter_cons, List.filter_cons, ih]

/-- At the place of a mergeable diagnostic are those that it is merged with. -/
theorem merges_eq_atPlace {k : Code} (hk : k.mergeable = true) {start stop : Int}
    (hd : atPlace k start stop d = true) (e : Diagnostic) : merges e d = atPlace k start stop e := by
  obtain ⟨rfl, rfl, rfl⟩ := atPlace_iff.mp hd
  rw [Bool.eq_iff_iff, merges_iff]
  exact and_iff_right hk

/-- **A call at another place, or of another class, changes nothing at a place.** -/
theorem filter_insert_other {k : Code} {start stop : Int} (hd : atPlace k start stop d = false)
    (es : List Diagnostic) :
    (insert d es).filter (atPlace k start stop) = es.filter (atPlace k start stop) := by
  induction es with
  | nil => exact List.filter_cons_of_neg (by simp [hd])
  | cons e es ih =>
    rw [insert]
    by_cases hmerges : merges e d = true
    · have he : atPlace k start stop e = false := by
        obtain ⟨hcode, hstart, hstop⟩ := atPlace_iff.mp (merges_iff.mp hmerges).2
        rw [← hd, atPlace, atPlace, hcode, hstart, hstop]
      have hkept : atPlace k start stop (addNotes e d.notes) = false := he
      rw [if_pos hmerges, List.filter_cons_of_neg (by simp [hkept]),
        List.filter_cons_of_neg (by simp [he])]
    · rw [if_neg hmerges, List.filter_cons, List.filter_cons, ih]

/-- **A call at a place** changes what is there, as if nothing else had been added. -/
theorem filter_insert_here {k : Code} (hk : k.mergeable = true) {start stop : Int}
    (hd : atPlace k start stop d = true) (es : List Diagnostic) :
    (insert d es).filter (atPlace k start stop) = insert d (es.filter (atPlace k start stop)) := by
  induction es with
  | nil => exact List.filter_cons_of_pos hd
  | cons e es ih =>
    have hmerges := merges_eq_atPlace hk hd e
    rw [insert]
    by_cases he : atPlace k start stop e = true
    · have hkept : atPlace k start stop (addNotes e d.notes) = true := he
      rw [if_pos (hmerges.trans he), List.filter_cons_of_pos hkept, List.filter_cons_of_pos he,
        insert, if_pos (hmerges.trans he)]
    · rw [if_neg (hmerges ▸ he), List.filter_cons_of_neg he, List.filter_cons_of_neg he, ih]

/-- What remains of diagnostics that are merged: the first one, with the new notes of the others. -/
def joined : List Diagnostic → List Diagnostic
  | [] => []
  | d :: later => [d.gather later]

theorem insert_joined {k : Code} (hk : k.mergeable = true) {start stop : Int}
    (hd : atPlace k start stop d = true) {as : List Diagnostic}
    (has : ∀ a ∈ as, atPlace k start stop a = true) : insert d (joined as) = joined (as ++ [d]) := by
  cases as with
  | nil => exact congrArg (fun x => [x]) (gather_nil d).symm
  | cons a later =>
    have hmerges : merges (a.gather later) d = true :=
      (merges_eq_atPlace hk hd _).trans (has a List.mem_cons_self)
    rw [joined, insert, if_pos hmerges, addNotes_gather]
    rfl

/-! ### Any number of calls -/

/-- A diagnostic as a collector for a file keeps it: one that names no file is of this one. -/
def attributed (file : String) (d : Diagnostic) : Diagnostic :=
  if d.file = "" then d.withFile file else d

/-- A fresh collector after some calls. -/
def collect (file : String) (ds : List Diagnostic) : Collector := addAll { file } ds

theorem file_collect (file : String) (ds : List Diagnostic) : (collect file ds).file = file := by
  induction ds using List.reverseRecOn with
  | nil => rfl
  | append_singleton ds d ih =>
    rw [collect, addAll, List.foldl_append]
    exact ih

/-- One more call. -/
theorem items_collect_concat (file : String) (ds : List Diagnostic) (d : Diagnostic) :
    (collect file (ds ++ [d])).items = insert (attributed file d) (collect file ds).items := by
  rw [collect, addAll, List.foldl_append, List.foldl_cons, List.foldl_nil, add, attributed]
  exact congrArg (fun f => insert (if d.file = "" then d.withFile f else d) _) (file_collect file ds)

/-- What is never merged is kept in its order, as often as it was added. -/
theorem collect_single (file : String) (ds : List Diagnostic) :
    (collect file ds).items.filter (fun e => !e.code.mergeable) =
      (ds.map (attributed file)).filter fun e => !e.code.mergeable := by
  induction ds using List.reverseRecOn with
  | nil => rfl
  | append_singleton ds d ih =>
    rw [items_collect_concat, filter_insert_single, List.filter_append, ih, List.map_append,
      List.filter_append]
    rfl

/-- **Of one class at one place one diagnostic is kept**: the first one, with the new notes of the
others. -/
theorem collect_place (file : String) (ds : List Diagnostic) {k : Code} (hk : k.mergeable = true)
    (start stop : Int) :
    (collect file ds).items.filter (atPlace k start stop) =
      joined ((ds.map (attributed file)).filter (atPlace k start stop)) := by
  induction ds using List.reverseRecOn with
  | nil => rfl
  | append_singleton ds d ih =>
    rw [items_collect_concat, List.map_append, List.filter_append, List.map_singleton]
    by_cases hd : atPlace k start stop (attributed file d) = true
    · rw [filter_insert_here hk hd, ih, List.filter_cons_of_pos hd, List.filter_nil]
      exact insert_joined hk hd fun a ha => (List.mem_filter.mp ha).2
    · rw [filter_insert_other (Bool.eq_false_iff.mpr hd), ih, List.filter_cons_of_neg hd,
        List.filter_nil, List.append_nil]

/-- A diagnostic that is merged with an earlier one is no first occurrence. -/
theorem eraseDupsBy_concat_merged {as : List Diagnostic} {d : Diagnostic}
    (h : ∃ a ∈ as, merges a d = true) :
    (as ++ [d]).eraseDupsBy merges = as.eraseDupsBy merges := by
  induction hn : as.length using Nat.strong_induction_on generalizing as with
  | _ n ih =>
    cases as with
    | nil => obtain ⟨a, ha, -⟩ := h; cases ha
    | cons a as =>
      rw [List.cons_append, List.eraseDupsBy_cons, List.eraseDupsBy_cons, List.filter_append]
      by_cases hd : merges d a = true
      · rw [List.filter_cons_of_neg (by simp [hd]), List.filter_nil, List.append_nil]
      · obtain ⟨b, hb, hbd⟩ := h
        have hba : merges b a = false := Bool.eq_false_iff.mpr fun hba =>
          hd (merges_trans (merges_comm b d ▸ hbd) hba)
        have hmem : b ∈ as.filter fun c => merges c a = false := by
          refine List.mem_filter.mpr ⟨?_, decide_eq_true hba⟩
          rcases List.mem_cons.mp hb with rfl | hb
          · exact absurd (merges_comm b d ▸ hbd) hd
          · exact hb
        rw [List.filter_cons_of_pos (by simp [hd]), List.filter_nil,
          ih _ (hn ▸ Nat.lt_succ_of_le (List.length_filter_le _ _)) ⟨b, hmem, hbd⟩ rfl]

/-- Any other diagnostic is one. -/
theorem eraseDupsBy_concat_new {as : List Diagnostic} {d : Diagnostic}
    (h : ∀ a ∈ as, merges a d = false) :
    (as ++ [d]).eraseDupsBy merges = as.eraseDupsBy merges ++ [d] := by
  induction hn : as.length using Nat.strong_induction_on generalizing as with
  | _ n ih =>
    cases as with
    | nil => rfl
    | cons a as =>
      obtain ⟨ha, has⟩ := List.forall_mem_cons.mp h
      rw [List.cons_append, List.eraseDupsBy_cons, List.eraseDupsBy_cons, List.filter_append,
        List.filter_cons_of_pos (by simp [merges_comm d a, ha]), List.filter_nil, List.cons_append,
        ih _ (hn ▸ Nat.lt_succ_of_le (List.length_filter_le _ _))
          (fun b hb => has b (List.mem_of_mem_filter hb)) rfl]

/-- What is merged with nothing that was added is merged with nothing that is kept. -/
theorem exists_merges_collect (file : String) (ds : List Diagnostic) (d : Diagnostic) :
    (∃ e ∈ (collect file ds).items, merges e d = true) ↔
      ∃ a ∈ ds.map (attributed file), merges a d = true := by
  by_cases hk : d.code.mergeable = true
  · have hd : atPlace d.code d.span.start d.span.stop d = true := atPlace_iff.mpr ⟨rfl, rfl, rfl⟩
    have hnil {as : List Diagnostic} : (∃ a ∈ as, merges a d = true) ↔
        as.filter (atPlace d.code d.span.start d.span.stop) ≠ [] := by
      simp only [merges_eq_atPlace hk hd, ne_eq, List.filter_eq_nil_iff, not_forall, not_not,
        exists_prop]
    rw [hnil, hnil, collect_place file ds hk]
    cases (ds.map (attributed file)).filter (atPlace d.code d.span.start d.span.stop) <;>
      simp [joined]
  · have hnone {as : List Diagnostic} : ¬ ∃ a ∈ as, merges a d = true :=
      fun ⟨a, _, ha⟩ => hk (mergeable_of_merges ha).2
    exact iff_of_false hnone hnone

/-- **Each first occurrence has its place**, and there it has gained notes at most. -/
theorem collect_firsts (file : String) (ds : List Diagnostic) :
    (collect file ds).items.length = ((ds.map (attributed file)).eraseDupsBy merges).length ∧
      Kept ((ds.map (attributed file)).eraseDupsBy merges) (collect file ds).items := by
  induction ds using List.reverseRecOn with
  | nil => exact ⟨rfl, .refl _⟩
  | append_singleton ds d ih =>
    obtain ⟨hlength, hkept⟩ := ih
    have hexists := exists_merges_collect file ds (attributed file d)
    rw [items_collect_concat, List.map_append, List.map_singleton]
    by_cases h : ∃ a ∈ ds.map (attributed file), merges a (attributed file d) = true
    · rw [eraseDupsBy_concat_merged h, length_insert (hexists.mpr h)]
      exact ⟨hlength, hkept.trans (kept_insert _ _)⟩
    · have hnew {as : List Diagnostic} (hnot : ¬ ∃ a ∈ as, merges a (attributed file d) = true) :
          ∀ a ∈ as, merges a (attributed file d) = false :=
        fun a ha => Bool.eq_false_iff.mpr fun hmerges => hnot ⟨a, ha, hmerges⟩
      rw [eraseDupsBy_concat_new (hnew h), insert_of_forall (hnew (mt hexists.mp h)),
        List.length_append, List.length_append, hlength]
      exact ⟨rfl, hkept.concat hlength _⟩

/-- **Earlier diagnostics never change** but by gaining notes. -/
theorem collect_append (file : String) (ds more : List Diagnostic) :
    Kept (collect file ds).items (collect file (ds ++ more)).items := by
  induction more using List.reverseRecOn with
  | nil =>
    rw [List.append_nil]
    exact .refl _
  | append_singleton more d ih =>
    rw [← List.append_assoc, items_collect_concat]
    exact ih.trans (kept_insert _ _)

end Collector

/-! ### Reading order -/

/-- Equal elements stay in their order. -/
theorem filter_mergeSort {α : Type} {le : α → α → Bool} (htrans : ∀ a b c, le a b → le b c → le a c)
    (htotal : ∀ a b, le a b || le b a) {p : α → Bool} (hp : ∀ a b, p a → p b → le a b) (l : List α) :
    (l.mergeSort le).filter p = l.filter p := by
  have hsorted : (l.filter p).Pairwise (le · ·) := by
    refine List.Pairwise.imp_of_mem (R := fun _ _ => True) (fun ha hb _ => ?_) ?_
    · exact hp _ _ (List.mem_filter.mp ha).2 (List.mem_filter.mp hb).2
    · exact List.pairwise_of_forall fun _ _ => trivial
  have hsub : (l.filter p).Sublist (l.mergeSort le) :=
    List.sublist_mergeSort htrans htotal hsorted List.filter_sublist
  have hfilter : (l.filter p).Sublist ((l.mergeSort le).filter p) := by
    have hboth := hsub.filter p
    rwa [List.filter_filter, show (fun a => p a && p a) = p from funext fun a => Bool.and_self _]
      at hboth
  exact (hfilter.eq_of_length ((List.mergeSort_perm l le).filter p).length_eq.symm).symm

namespace Diagnostic

/-- What diagnostics are ordered by: file, start, end, and name of the class. -/
def key (d : Diagnostic) : String ×ₗ Int ×ₗ Int ×ₗ String :=
  toLex (d.file, toLex (d.span.start, toLex (d.span.stop, d.code.name)))

theorem precedes_iff {a b : Diagnostic} : precedes a b = true ↔ a.key ≤ b.key := by
  rw [key, key, Prod.Lex.toLex_le_toLex, Prod.Lex.toLex_le_toLex, Prod.Lex.toLex_le_toLex, precedes]
  by_cases hfile : a.file = b.file
  · by_cases hstart : a.span.start = b.span.start
    · by_cases hstop : a.span.stop = b.span.stop
      · simp [hfile, hstart, hstop]
      · simp [hfile, hstart, hstop]
    · simp [hfile, hstart]
  · simp [hfile]

/-- A list of diagnostics in reading order: the same ones, ordered by their keys, and those of one key
as they stood before. -/
structure InOrder (ds es : List Diagnostic) : Prop where
  perm : es.Perm ds
  pairwise : es.Pairwise fun a b => a.key ≤ b.key
  stable : ∀ k, es.filter (fun d => d.key = k) = ds.filter fun d => d.key = k

theorem inOrder_sort (ds : List Diagnostic) : InOrder ds (sort ds) := by
  have htrans : ∀ a b c : Diagnostic, precedes a b → precedes b c → precedes a c :=
    fun a b c hab hbc => precedes_iff.mpr ((precedes_iff.mp hab).trans (precedes_iff.mp hbc))
  have htotal : ∀ a b : Diagnostic, precedes a b || precedes b a := fun a b => by
    rw [Bool.or_eq_true, precedes_iff, precedes_iff]
    exact le_total a.key b.key
  refine ⟨List.mergeSort_perm ds precedes, ?_, fun k => ?_⟩
  · exact (List.pairwise_mergeSort htrans htotal ds).imp fun hab => precedes_iff.mp hab
  · refine filter_mergeSort htrans htotal (fun a b ha hb => precedes_iff.mpr ?_) ds
    rw [of_decide_eq_true ha, of_decide_eq_true hb]

end Diagnostic

/-! ### Policies -/

namespace Policy

/-- A diagnostic with the severity that a policy gives its class, if it gives one. -/
def regraded (p : Policy) (d : Diagnostic) : Diagnostic :=
  { d with severity := ((p.overrides.find? fun o => o.1 = d.code).map (·.2)).getD d.severity }

/-- **A policy drops the classes it disables**, and changes nothing but severities. -/
theorem apply_eq (p : Policy) (ds : List Diagnostic) :
    p.apply ds = ((Diagnostic.sort ds).filter fun d => d.code ∉ p.disabled).map p.regraded := by
  rw [apply, ← List.filterMap_eq_map, List.filterMap_filter]
  refine List.filterMap_congr fun d _ => ?_
  rw [adjust]
  by_cases hd : d.code ∈ p.disabled
  · simp [hd]
  · rw [if_neg hd, if_pos (by simpa using hd), Function.comp_apply, regraded]
    cases p.overrides.find? fun o => o.1 = d.code <;> rfl

end Policy

namespace Collector

open Diagnostic

/-- **What a collector keeps of what was added.**  Diagnostics that are never merged are kept as they
were added; of one mergeable class at one place one is kept, the first, with the new notes of the
others; and the first occurrences keep their order. -/
structure Keeps (added : List Diagnostic) (c : Collector) : Prop where
  single : c.items.filter (fun d => !d.code.mergeable) = added.filter fun d => !d.code.mergeable
  place : ∀ k : Code, k.mergeable = true → ∀ start stop : Int,
    c.items.filter (atPlace k start stop) = joined (added.filter (atPlace k start stop))
  length : c.items.length = (added.eraseDupsBy merges).length
  firsts : Kept (added.eraseDupsBy merges) c.items

/-- Of two reports about one arm, the second has a note that is new, and one that is not. -/
example :
    (collect "a.mc"
      [⟨.unreachableArm, .warning, .checker, "m", ⟨10, 20, 2, 3⟩, "", ["first"]⟩,
        ⟨.duplicateBinding, .error, .checker, "n", ⟨10, 20, 2, 3⟩, "", []⟩,
        ⟨.unreachableArm, .error, .checker, "o", ⟨10, 20, 2, 3⟩, "", ["second", "first"]⟩]).items =
      [⟨.unreachableArm, .warning, .checker, "m", ⟨10, 20, 2, 3⟩, "a.mc", ["first", "second"]⟩,
        ⟨.duplicateBinding, .error, .checker, "n", ⟨10, 20, 2, 3⟩, "a.mc", []⟩] := by
  decide

end Collector

end PatternPlan
