import PatternPlan.Proofs.Matching.Covers

/-!
# The part of a pattern that hides later arms

* `accepts_of_shadowing` — **the hiding part accepts less**: what it accepts is accepted by the
  whole pattern;
* `mem_nodes_shadowing`, `fits_shadowing`, `at_shadowing` — it has no node, no occurrence at a type
  and no constant that the pattern has not, so what the checks rely on carries over;
* `WellFormed.shadowing` — it is well formed wherever the pattern is.
-/

namespace PatternPlan.Typed.Pattern

variable {types : TypeTable} {m : Meaning}

theorem shadowings_eq_map (ps : List Pattern) : shadowings ps = ps.map shadowing := by
  induction ps with
  | nil => rfl
  | cons p ps ih => rw [shadowings, ih, List.map_cons]

theorem fieldShadowings_eq_map (fs : List (String × Pattern)) :
    fieldShadowings fs = fs.map fun f => (f.1, shadowing f.2) := by
  induction fs with
  | nil => rfl
  | cons f fs ih => rw [fieldShadowings, ih, List.map_cons]

theorem exists_of_mem_partShadowings {q : Pattern} {ps : List Pattern}
    (h : q ∈ partShadowings ps) : ∃ p ∈ ps, q = shadowing p := by
  induction ps with
  | nil => simp [partShadowings] at h
  | cons p ps ih =>
    rw [partShadowings] at h
    split at h
    · obtain ⟨p', hp', rfl⟩ := ih h
      exact ⟨p', List.mem_cons_of_mem _ hp', rfl⟩
    · rcases List.mem_cons.mp h with rfl | h
      · exact ⟨p, List.mem_cons_self, rfl⟩
      · obtain ⟨p', hp', rfl⟩ := ih h
        exact ⟨p', List.mem_cons_of_mem _ hp', rfl⟩

/-- The hiding part of alternatives: all of them, or alternatives each of which is the hiding part
of one of them. -/
theorem shadowing_or (i : Info) (ps : List Pattern) : shadowing (.or i ps) = .or i ps ∨
    ∃ qs, shadowing (.or i ps) = ofAlternatives i qs ∧ ∀ q ∈ qs, ∃ p ∈ ps, q = shadowing p := by
  rw [shadowing]
  split
  · exact .inl rfl
  · exact .inr ⟨_, rfl, fun q hq => exists_of_mem_partShadowings hq⟩

theorem accepts_ofAlternatives (i : Info) (ps : List Pattern) (v : Value) :
    accepts m (ofAlternatives i ps) v = acceptsAny m ps v := by
  rw [ofAlternatives.eq_def]
  split
  · rw [acceptsAny, acceptsAny, Bool.or_false]
  · rfl

/-- Patterns that accept less than others, in the same places. -/
theorem acceptsAll_of_map {f : Pattern → Pattern} {ps : List Pattern} {vs : List Value}
    (hf : ∀ p ∈ ps, ∀ v, accepts m (f p) v = true → accepts m p v = true)
    (h : acceptsAll m (ps.map f) vs = true) : acceptsAll m ps vs = true := by
  induction ps generalizing vs with
  | nil => exact h
  | cons p ps ih =>
    cases vs with
    | nil => simp [acceptsAll] at h
    | cons v vs =>
      rw [List.map_cons, acceptsAll, Bool.and_eq_true] at h
      rw [acceptsAll, Bool.and_eq_true]
      refine ⟨hf p List.mem_cons_self v h.1, ih (fun q hq => ?_) h.2⟩
      exact hf q (List.mem_cons_of_mem _ hq)

/-- **The hiding part of a pattern accepts less than the pattern.** -/
theorem accepts_of_shadowing {p : Pattern} {v : Value} (h : accepts m (shadowing p) v = true) :
    accepts m p v = true := by
  induction p using Pattern.induction generalizing v with
  | binding i n viaAt p ih => exact ih h
  | tuple i ps ih =>
    rw [shadowing, shadowings_eq_map] at h
    cases v with
    | tuple vs =>
      exact acceptsAll_of_map (fun p hp _ hw => ih p hp hw) h
    | _ => simp [accepts] at h
  | construct i n ps ih =>
    rw [shadowing, shadowings_eq_map] at h
    cases v with
    | variant c vs =>
      simp only [accepts, Bool.and_eq_true] at h ⊢
      exact ⟨h.1, acceptsAll_of_map (fun p hp _ hw => ih p hp hw) h.2⟩
    | _ => simp [accepts] at h
  | record i fs r ih =>
    rw [shadowing, fieldShadowings_eq_map] at h
    cases v with
    | record gs =>
      refine acceptsFields_iff.mpr fun f hf => ?_
      obtain ⟨w, hw, hacc⟩ := acceptsFields_iff.mp h _ (List.mem_map_of_mem hf)
      exact ⟨w, hw, ih f hf hacc⟩
    | _ => simp [accepts] at h
  | or i ps ih =>
    rcases shadowing_or i ps with heq | ⟨qs, heq, hqs⟩
    · rwa [heq] at h
    · rw [heq, accepts_ofAlternatives] at h
      obtain ⟨q, hq, hacc⟩ := acceptsAny_iff.mp h
      obtain ⟨p, hp, rfl⟩ := hqs q hq
      exact acceptsAny_iff.mpr ⟨p, hp, ih p hp hacc⟩
  | wildcard | var | literal | slice | range | regex | call | callWith => exact h

/-! ### What carries over -/

/-- The nodes that put other patterns together; the checks rely on nothing in them but their keys
and arity. -/
def isComposite : Pattern → Bool
  | .tuple _ _ | .record _ _ _ | .construct _ _ _ | .binding _ _ _ _ | .or _ _ => true
  | _ => false

theorem mem_nodes_ofAlternatives {i : Info} {ps : List Pattern} {q : Pattern}
    (h : q ∈ (ofAlternatives i ps).nodes) : q.isComposite = true ∨ ∃ p ∈ ps, q ∈ p.nodes := by
  rw [ofAlternatives.eq_def] at h
  split at h
  · exact .inr ⟨_, List.mem_singleton_self _, h⟩
  · rcases List.mem_cons.mp h with rfl | h
    · exact .inl rfl
    · exact .inr (mem_nodesOfList.mp h)

/-- A node of the hiding part that is not composite is a node of the pattern. -/
theorem mem_nodes_shadowing {p q : Pattern} (h : q ∈ (shadowing p).nodes) :
    q.isComposite = true ∨ q ∈ p.nodes := by
  induction p using Pattern.induction with
  | binding i n viaAt p ih =>
    rcases List.mem_cons.mp h with rfl | h
    · exact .inl rfl
    · exact (ih h).imp_right (List.mem_cons_of_mem _)
  | tuple i ps ih =>
    rw [shadowing, shadowings_eq_map] at h
    rcases List.mem_cons.mp h with rfl | h
    · exact .inl rfl
    · obtain ⟨_, hp', hq⟩ := mem_nodesOfList.mp h
      obtain ⟨p, hp, rfl⟩ := List.mem_map.mp hp'
      refine (ih p hp hq).imp_right fun h => List.mem_cons_of_mem _ ?_
      exact mem_nodesOfList.mpr ⟨p, hp, h⟩
  | construct i n ps ih =>
    rw [shadowing, shadowings_eq_map] at h
    rcases List.mem_cons.mp h with rfl | h
    · exact .inl rfl
    · obtain ⟨_, hp', hq⟩ := mem_nodesOfList.mp h
      obtain ⟨p, hp, rfl⟩ := List.mem_map.mp hp'
      refine (ih p hp hq).imp_right fun h => List.mem_cons_of_mem _ ?_
      exact mem_nodesOfList.mpr ⟨p, hp, h⟩
  | record i fs r ih =>
    rw [shadowing, fieldShadowings_eq_map] at h
    rcases List.mem_cons.mp h with rfl | h
    · exact .inl rfl
    · obtain ⟨_, hf', hq⟩ := mem_nodesOfFields.mp h
      obtain ⟨f, hf, rfl⟩ := List.mem_map.mp hf'
      refine (ih f hf hq).imp_right fun h => List.mem_cons_of_mem _ ?_
      exact mem_nodesOfFields.mpr ⟨f, hf, h⟩
  | or i ps ih =>
    rcases shadowing_or i ps with heq | ⟨qs, heq, hqs⟩
    · rw [heq] at h
      exact .inr h
    · rw [heq] at h
      rcases mem_nodes_ofAlternatives h with hc | ⟨q', hq', hq⟩
      · exact .inl hc
      · obtain ⟨p, hp, rfl⟩ := hqs q' hq'
        refine (ih p hp hq).imp_right fun h => List.mem_cons_of_mem _ ?_
        exact mem_nodesOfList.mpr ⟨p, hp, h⟩
  | wildcard | var | literal | slice | range | regex | call | callWith => exact .inr h

theorem occurs_ofAlternatives {payload : String → Option Ty} {t u : Ty} {i : Info}
    {ps : List Pattern} {q : Pattern} (h : Occurs types payload t (ofAlternatives i ps) u q) :
    q = .or i ps ∨ ∃ p ∈ ps, Occurs types payload t p u q := by
  rw [ofAlternatives.eq_def] at h
  split at h
  · exact .inr ⟨_, List.mem_singleton_self _, h⟩
  · cases h with
    | here => exact .inl rfl
    | or hp hq => exact .inr ⟨_, hp, hq⟩

/-- Where all nodes of a pattern fit, all nodes of its hiding part fit. -/
theorem fits_shadowing {payload : String → Option Ty} {t : Ty} {p : Pattern}
    (h : ∀ u q, Occurs types payload t p u q → NodeFits types u q) :
    ∀ u q, Occurs types payload t (shadowing p) u q → NodeFits types u q := by
  induction p using Pattern.induction generalizing t with
  | binding i n viaAt p ih =>
    intro u q hq
    cases hq with
    | here => trivial
    | binding hq => exact ih (fun u q hq => h u q (.binding hq)) u q hq
  | tuple i ps ih =>
    intro u q hq
    rw [shadowing, shadowings_eq_map] at hq
    cases hq with
    | here => trivial
    | tuple he hq =>
      rw [List.zip_map_right] at he
      obtain ⟨⟨s, p⟩, hmem, heq⟩ := List.mem_map.mp he
      rw [← heq] at hq
      exact ih p (List.of_mem_zip hmem).2 (fun u q hq => h u q (.tuple hmem hq)) u q hq
  | construct i n ps ih =>
    intro u q hq
    rw [shadowing, shadowings_eq_map] at hq
    cases hq with
    | here =>
      intro s v hs hv hn
      rw [List.length_map]
      exact h t _ (.here _ _) s v hs hv hn
    | construct hs hv hn he hq =>
      rw [List.zip_map_right] at he
      obtain ⟨⟨s, p⟩, hmem, heq⟩ := List.mem_map.mp he
      rw [← heq] at hq
      refine ih p (List.of_mem_zip hmem).2 (fun u q hq => ?_) u q hq
      exact h u q (.construct hs hv hn hmem hq)
  | record i fs r ih =>
    intro u q hq
    rw [shadowing, fieldShadowings_eq_map] at hq
    cases hq with
    | here =>
      have hfits := h t _ (.here _ _)
      simpa only [NodeFits, List.map_map, Function.comp_def] using hfits
    | record hg hp hq =>
      obtain ⟨⟨name, p⟩, hf, heq⟩ := List.mem_map.mp hp
      obtain ⟨rfl, rfl⟩ := Prod.mk.inj heq
      exact ih (_, p) hf (fun u q hq => h u q (.record hg hf hq)) u q hq
  | or i ps ih =>
    intro u q hq
    rcases shadowing_or i ps with heq | ⟨qs, heq, hqs⟩
    · rw [heq] at hq
      exact h u q hq
    · rw [heq] at hq
      rcases occurs_ofAlternatives hq with rfl | ⟨q', hq', hq⟩
      · trivial
      · obtain ⟨p, hp, rfl⟩ := hqs q' hq'
        exact ih p hp (fun u q hq => h u q (.or hp hq)) u q hq
  | wildcard | var | literal | slice | range | regex | call | callWith => exact h

/-- **The hiding part of a well-formed pattern is well formed.** -/
theorem WellFormed.shadowing {t : Ty} {p : Pattern} (h : WellFormed types m t p) :
    WellFormed types m t p.shadowing where
  fits := fits_shadowing h.fits
  nodes q hq := by
    rcases mem_nodes_shadowing hq with hc | hq
    · cases q <;> first | exact ⟨trivial, trivial⟩ | cases hc
    · exact h.nodes q hq

theorem at_ofAlternatives {i : Info} {ps : List Pattern} {place : List Step} {x : Pattern}
    (h : At (ofAlternatives i ps) place x) : x = .or i ps ∨ ∃ p ∈ ps, At p place x := by
  rw [ofAlternatives.eq_def] at h
  split at h
  · exact .inr ⟨_, List.mem_singleton_self _, h⟩
  · cases h with
    | here => exact .inl rfl
    | or hp hx => exact .inr ⟨_, hp, hx⟩

/-- A constant of the hiding part stands in the same place of the pattern. -/
theorem at_shadowing {p x : Pattern} {place : List Step} {l : Literal} (hl : l ∈ x.constants)
    (h : At (shadowing p) place x) : At p place x := by
  induction p using Pattern.induction generalizing place with
  | binding i n viaAt p ih =>
    cases h with
    | here => simp [constants, shadowing] at hl
    | binding hx => exact .binding (ih hx)
  | tuple i ps ih =>
    rw [shadowing, shadowings_eq_map] at h
    cases h with
    | here => simp [constants] at hl
    | tuple hn hp hx =>
      rw [List.getElem?_map, Option.map_eq_some_iff] at hp
      obtain ⟨p, hp, rfl⟩ := hp
      rw [List.length_map] at hn
      exact .tuple hn hp (ih p (List.mem_of_getElem? hp) hx)
  | construct i n ps ih =>
    rw [shadowing, shadowings_eq_map] at h
    cases h with
    | here => simp [constants] at hl
    | construct hp hx =>
      rw [List.getElem?_map, Option.map_eq_some_iff] at hp
      obtain ⟨p, hp, rfl⟩ := hp
      exact .construct hp (ih p (List.mem_of_getElem? hp) hx)
  | record i fs r ih =>
    rw [shadowing, fieldShadowings_eq_map] at h
    cases h with
    | here => simp [constants] at hl
    | record hf hx =>
      obtain ⟨⟨name, p⟩, hmem, heq⟩ := List.mem_map.mp hf
      obtain ⟨rfl, rfl⟩ := Prod.mk.inj heq
      exact .record hmem (ih (_, p) hmem hx)
  | or i ps ih =>
    rcases shadowing_or i ps with heq | ⟨qs, heq, hqs⟩
    · rwa [heq] at h
    · rw [heq] at h
      rcases at_ofAlternatives h with rfl | ⟨q, hq, hx⟩
      · simp [constants] at hl
      · obtain ⟨p, hp, rfl⟩ := hqs q hq
        exact .or hp (ih p hp hx)
  | wildcard | var | literal | slice | range | regex | call | callWith => exact h

theorem OneTyped.shadowing {p b : Pattern} (h : OneTyped p b) : OneTyped p.shadowing b := by
  intro place x y hx hy l hl
  exact h place x y (at_shadowing hl hx) hy l hl

end PatternPlan.Typed.Pattern
