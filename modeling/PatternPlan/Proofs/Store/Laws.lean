import PatternPlan.Proofs.Diagnostic.Collected
import PatternPlan.Store.Memory

/-!
# What a database promises

* `View`, `View.Lawful` — the rows behind the content of a database, and what transactions, keys and
  orders mean for them;
* `newestFirst`, `ListedBefore.eq_of_perm` — items by falling times and then by falling numbers: there
  is one such order;
* `eq_of_perm_numbered` — rows in the order of distinct numbers;
* `Database.memory_lawful` — **the database in memory keeps these laws**.
-/

namespace PatternPlan

/-- Whether of two numbered items the one is listed before the other: its time is later, or it is the
same and its number is higher. -/
def ListedBefore {α : Type} (time : α → Int64) (a b : α × Nat) : Prop :=
  time b.1 < time a.1 ∨ (time b.1 = time a.1 ∧ b.2 < a.2)

/-- How a database is seen: the rows of its tables in the order they were inserted.  A transaction
has rows of its own, and rows that it started from. -/
structure View (db : Database) where
  rows : db.Content → List Row
  inside : db.Transaction → List Row
  before : db.Transaction → List Row

/-- What is relied on: a transaction is kept whole or not at all, a row is refused exactly when its
key is in use or its run is missing, and queries give the rows that they ask for in the order that they
ask for.  Runs are numbered as they were inserted. -/
structure View.Lawful {db : Database} (v : View db) : Prop where
  empty : v.rows db.empty = []
  start_inside (c : db.Content) : v.inside (db.start c) = v.rows c
  start_before (c : db.Content) : v.before (db.start c) = v.rows c
  insert {t : db.Transaction} {row : Row} (h : row.Fits (v.inside t)) :
    ∃ u, db.insert t row = some u ∧ v.inside u = v.inside t ++ [row] ∧ v.before u = v.before t
  refuse {t : db.Transaction} {row : Row} (h : ¬ row.Fits (v.inside t)) : db.insert t row = none
  commit (t : db.Transaction) : v.rows (db.commit t) = v.inside t
  rollback (t : db.Transaction) : v.rows (db.rollback t) = v.before t
  plans_perm (c : db.Content) (id : String) :
    (db.plansOf c id).Perm (((v.rows c).filterMap Row.plan?).filter fun r => r.run = id)
  plans_ordered (c : db.Content) (id : String) :
    (db.plansOf c id).Pairwise fun a b => a.index ≤ b.index
  diagnostics_perm (c : db.Content) (id : String) :
    (db.diagnosticsOf c id).Perm (((v.rows c).filterMap Row.diagnostic?).filter fun r => r.run = id)
  diagnostics_ordered (c : db.Content) (id : String) :
    (db.diagnosticsOf c id).Pairwise fun a b => a.index ≤ b.index
  runs_ordered (c : db.Content) (file : String) : ∃ order : List (RunInfo × Nat),
    order.Perm (((v.rows c).filterMap Row.run?).zipIdx.filter fun r => r.1.file = file) ∧
    order.Pairwise (ListedBefore RunInfo.created) ∧ db.runsOf c file none = order.map Prod.fst
  runs_limited (c : db.Content) (file : String) (n : Nat) :
    db.runsOf c file (some n) = (db.runsOf c file none).take n

/-! ### Orders -/

section Newest

variable {α : Type} {time : α → Int64}

/-- Two lists of the same items in this order are one list. -/
theorem ListedBefore.eq_of_perm {l l' : List (α × Nat)} (hperm : l.Perm l')
    (h : l.Pairwise (ListedBefore time)) (h' : l'.Pairwise (ListedBefore time)) : l = l' := by
  refine hperm.eq_of_pairwise ?_ h h'
  rintro a b - - (hab | ⟨hsame, hab⟩) (hba | ⟨hsame', hba⟩)
  · exact absurd hab (Int64.lt_asymm hba)
  · rw [hsame'] at hab
    exact absurd hab Int64.lt_irrefl
  · rw [hsame] at hba
    exact absurd hba Int64.lt_irrefl
  · omega

/-- Numbered items, the newest first. -/
def newestFirst (time : α → Int64) (items : List (α × Nat)) : List (α × Nat) :=
  items.reverse.mergeSort fun a b => time b.1 ≤ time a.1

theorem newestFirst_perm (items : List (α × Nat)) : (newestFirst time items).Perm items :=
  (List.mergeSort_perm _ _).trans (List.reverse_perm _)

theorem pairwise_newestFirst {items : List (α × Nat)} (h : items.Pairwise fun a b => a.2 < b.2) :
    (newestFirst time items).Pairwise (ListedBefore time) := by
  have htrans : ∀ a b c : α × Nat, decide (time b.1 ≤ time a.1) → decide (time c.1 ≤ time b.1) →
      decide (time c.1 ≤ time a.1) := by
    intro a b c hab hbc
    rw [decide_eq_true_eq] at hab hbc ⊢
    exact Int64.le_trans hbc hab
  have htotal : ∀ a b : α × Nat, decide (time b.1 ≤ time a.1) || decide (time a.1 ≤ time b.1) := by
    intro a b
    rw [Bool.or_eq_true, decide_eq_true_eq, decide_eq_true_eq]
    exact Int64.le_total _ _
  rw [List.pairwise_iff_forall_sublist]
  intro a b hab
  have hsorted := List.pairwise_iff_forall_sublist.mp
    (List.pairwise_mergeSort htrans htotal items.reverse) hab
  rw [decide_eq_true_eq] at hsorted
  by_cases hsame : time b.1 = time a.1
  · -- items of one time stand in the order of the reversed list
    have hfilter := filter_mergeSort htrans htotal (p := fun c => decide (time c.1 = time a.1))
      (fun c d hc hd => by
        rw [decide_eq_true_eq] at hc hd ⊢
        rw [hc, hd]
        exact Int64.le_refl _) items.reverse
    have hpair := hab.filter fun c => decide (time c.1 = time a.1)
    rw [newestFirst, hfilter] at hpair
    simp only [List.filter_cons, hsame, decide_true, if_true, List.filter_nil] at hpair
    have hreverse : items.reverse.Pairwise fun a b => b.2 < a.2 := List.pairwise_reverse.mpr h
    exact .inr ⟨hsame, List.pairwise_iff_forall_sublist.mp hreverse (hpair.trans List.filter_sublist)⟩
  · refine .inl (Int64.not_le.mp fun hle => hsame ?_)
    exact Int64.le_antisymm hsorted hle

/-- Items that are numbered one after the other have rising numbers. -/
theorem pairwise_zipIdx (as : List α) (n : Nat) : (as.zipIdx n).Pairwise fun a b => a.2 < b.2 := by
  rw [← List.pairwise_map, List.zipIdx_map_snd]
  exact List.pairwise_lt_range'

end Newest

/-- Rows in the order of their numbers, if no number is there twice. -/
theorem eq_of_perm_numbered {ρ : Type} {index : ρ → Nat} {l l' : List ρ} (hperm : l.Perm l')
    (h : l.Pairwise fun a b => index a ≤ index b) (h' : l'.Pairwise fun a b => index a < index b) :
    l = l' := by
  have hdistinct : ∀ a ∈ l', ∀ b ∈ l', index a = index b → a = b := by
    have hnodup : (l'.map index).Nodup := List.pairwise_map.mpr (h'.imp Nat.ne_of_lt)
    exact fun a ha b hb => List.inj_on_of_nodup_map hnodup ha hb
  refine hperm.eq_of_pairwise ?_ h (h'.imp Nat.le_of_lt)
  intro a b ha hb hab hba
  exact hdistinct a (hperm.subset ha) b hb (Nat.le_antisymm hab hba)

/-! ### The database in memory -/

namespace Database

theorem ordered_perm {ρ : Type} (index : ρ → Nat) (rows : List ρ) : (ordered index rows).Perm rows :=
  List.mergeSort_perm _ _

theorem pairwise_ordered {ρ : Type} (index : ρ → Nat) (rows : List ρ) :
    (ordered index rows).Pairwise fun a b => index a ≤ index b := by
  have htrans : ∀ a b c : ρ, decide (index a ≤ index b) → decide (index b ≤ index c) →
      decide (index a ≤ index c) := by
    intro a b c hab hbc
    rw [decide_eq_true_eq] at hab hbc ⊢
    exact Nat.le_trans hab hbc
  have htotal : ∀ a b : ρ, decide (index a ≤ index b) || decide (index b ≤ index a) := by
    intro a b
    rw [Bool.or_eq_true, decide_eq_true_eq, decide_eq_true_eq]
    exact Nat.le_total _ _
  exact (List.pairwise_mergeSort htrans htotal rows).imp of_decide_eq_true

/-- The rows of the database in memory are its content. -/
def memoryView : View memory := ⟨id, Prod.snd, Prod.fst⟩

theorem memory_runsOf (rows : List Row) (file : String) : memory.runsOf rows file none
    = (newestFirst RunInfo.created
        ((rows.filterMap Row.run?).zipIdx.filter fun r => r.1.file = file)).map Prod.fst := by
  have hnumbered : ((rows.filterMap Row.run?).zipIdx.filter fun r => r.1.file = file).map Prod.fst
      = (rows.filterMap Row.run?).filter fun r => r.file = file := by
    calc ((rows.filterMap Row.run?).zipIdx.filter fun r => r.1.file = file).map Prod.fst
      _ = ((rows.filterMap Row.run?).zipIdx.map Prod.fst).filter fun r => r.file = file := by
        rw [List.filter_map]
        rfl
      _ = _ := by rw [List.zipIdx_map_fst]
  have hsorted : ∀ items : List (RunInfo × Nat), (newestFirst RunInfo.created items).map Prod.fst
      = (items.map Prod.fst).reverse.mergeSort RunInfo.newer := by
    intro items
    rw [newestFirst, ← List.map_reverse]
    exact List.map_mergeSort fun _ _ _ _ => rfl
  rw [hsorted, hnumbered]
  rfl

/-- **The database in memory keeps the laws of databases.** -/
theorem memory_lawful : memoryView.Lawful where
  empty := rfl
  start_inside _ := rfl
  start_before _ := rfl
  insert h := ⟨_, congrArg (Option.map _) (if_pos h), rfl, rfl⟩
  refuse h := congrArg (Option.map _) (if_neg h)
  commit _ := rfl
  rollback _ := rfl
  plans_perm _ _ := ordered_perm _ _
  plans_ordered _ _ := pairwise_ordered _ _
  diagnostics_perm _ _ := ordered_perm _ _
  diagnostics_ordered _ _ := pairwise_ordered _ _
  runs_ordered rows file :=
    ⟨_, newestFirst_perm _, pairwise_newestFirst (List.Pairwise.filter _ (pairwise_zipIdx _ _)),
      memory_runsOf rows file⟩
  runs_limited _ _ _ := rfl

end Database

end PatternPlan
