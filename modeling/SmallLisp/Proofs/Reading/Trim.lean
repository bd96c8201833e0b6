import SmallLisp.Proofs.Reading.Space

/-!
# Trimmed texts

White space at the two ends of a text that consists of tokens is no part of them, also where a
comment runs to the end. The main statement is `scans_trim`.
-/

namespace SmallLisp

section

variable {cs ds : List Char} {ts : List Token}

theorem exists_spaceState? {c : Char} (h : Text.isBlank c = true) (inComment : Bool) :
    ∃ running, spaceState? inComment c = some running := by
  cases inComment with
  | true => exact ⟨_, rfl⟩
  | false => exact ⟨false, spaceState?_blank (.inl h)⟩

theorem scans_dropWhile_blank (cs : List Char) : scans (cs.dropWhile Text.isBlank) = scans cs := by
  induction cs with
  | nil => rfl
  | cons c cs ih =>
    cases hc : Text.isBlank c with
    | true => rw [List.dropWhile_cons_of_pos hc, ih, scans_blank (spaceState?_blank (.inl hc))]
    | false => rw [List.dropWhile_cons_of_neg (by simp [hc])]

theorem rest_skipSpace_blank (hds : ∀ c ∈ ds, Text.isBlank c = true) (inComment : Bool) :
    (skipSpace inComment ds).rest = [] := by
  induction ds generalizing inComment with
  | nil => rfl
  | cons c ds ih =>
    obtain ⟨running, hstate⟩ := exists_spaceState? (hds c List.mem_cons_self) inComment
    rw [skipSpace_some hstate]
    exact ih (fun c' hc' => hds c' (List.mem_cons_of_mem c hc')) running

theorem rest_skipSpace_append {inComment : Bool} (hcs : (skipSpace inComment cs).rest = [])
    (hds : ∀ c ∈ ds, Text.isBlank c = true) : (skipSpace inComment (cs ++ ds)).rest = [] := by
  induction cs generalizing inComment with
  | nil => exact rest_skipSpace_blank hds inComment
  | cons c cs ih =>
    rw [List.cons_append]
    cases hstate : spaceState? inComment c with
    | none =>
      rw [skipSpace_none hstate] at hcs
      cases hcs
    | some running =>
      rw [skipSpace_some hstate] at hcs ⊢
      exact ih hcs

/-- Blank characters behind a text of tokens are no part of one. -/
theorem scans_of_append_blank (h : scans (cs ++ ds) = ts.map .ok)
    (hds : ∀ c ∈ ds, Text.isBlank c = true) : scans cs = ts.map .ok := by
  have hstop : Stops ds := by
    intro c hc
    simp [isSymbolChar, hds c (List.mem_of_head? hc)]
  have habsent : ∀ c, Text.isBlank c = false → c ∉ ds := by
    intro c hc hmem
    rw [hds c hmem] at hc
    cases hc
  have hmark : ds.head? ≠ some '@' := fun hc => habsent '@' (by decide) (List.mem_of_head? hc)
  obtain ⟨us, hus | ⟨e, back, hus⟩⟩ := scans_cases cs
  · obtain ⟨rest, htakes, hrest⟩ := exists_takes (hus.trans (List.append_nil _).symm)
    have hspace := rest_skipSpace_of_none (first?_eq_none hrest)
    have hnone := first?_of_rest (rest_skipSpace_append hspace hds)
    rw [htakes.scans_append hstop hmark, scans_none hnone, List.append_nil] at h
    exact hus.trans h
  · obtain ⟨e', back', hfailure⟩ :=
      scans_append_failure hus hstop hmark (habsent '"' (by decide))
    exact absurd (h.symm.trans hfailure) (map_ok_ne_failure ts us e' back')

/-- A text of tokens holds the same tokens when it is trimmed. -/
theorem scans_trim {text : String} (h : scans text.toList = ts.map .ok) :
    scans (Text.trim text).toList = ts.map .ok := by
  rw [← scans_dropWhile_blank] at h
  unfold Text.trim
  dsimp only
  rw [String.toList_ofList]
  generalize text.toList.dropWhile Text.isBlank = front at h ⊢
  have hcut : (front.reverse.dropWhile Text.isBlank).reverse ++
      (front.reverse.takeWhile Text.isBlank).reverse = front := by
    rw [← List.reverse_append, List.takeWhile_append_dropWhile, List.reverse_reverse]
  rw [← hcut] at h
  exact scans_of_append_blank h fun c hc => of_mem_takeWhile (List.mem_reverse.mp hc)

end

end SmallLisp
