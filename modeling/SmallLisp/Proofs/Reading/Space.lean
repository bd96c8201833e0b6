import SmallLisp.Proofs.Reading.Lines

/-!
# Space between tokens

Space told by its shape: white space, commas, and comments up to the end of their lines. Scanning
passes over it, and a text in which no token and no failure is found is nothing but space.
-/

namespace SmallLisp

/-! ### The shape of space -/

/-- The texts that separate tokens: white space, commas, and comments with the newlines that end
them. -/
inductive Separator : List Char → Prop where
  | nil : Separator []
  | blank {c : Char} {cs : List Char} (h : Text.isBlank c = true ∨ c = ',') (hs : Separator cs) :
      Separator (c :: cs)
  | comment {line cs : List Char} (h : '\n' ∉ line) (hs : Separator cs) :
      Separator (';' :: (line ++ '\n' :: cs))

/-- Whether a text is nothing but space. Its last comment may run up to its end. -/
def IsSpace (cs : List Char) : Prop :=
  Separator cs ∨ ∃ front line, Separator front ∧ '\n' ∉ line ∧ cs = front ++ ';' :: line

/-- A separator that is not empty ends a symbol, and does not go on with the mark `@`. -/
theorem Separator.head {c : Char} {cs : List Char} (h : Separator (c :: cs)) :
    isSymbolChar c = false ∧ c ≠ '@' := by
  cases h with
  | blank hc _ =>
    rcases hc with hc | rfl
    · refine ⟨by simp [isSymbolChar, hc], ?_⟩
      rintro rfl
      cases hc
    · exact ⟨by decide, by decide⟩
  | comment _ _ => exact ⟨by decide, by decide⟩

/-! ### Passing over space -/

section

variable {c : Char} {cs line w : List Char}

theorem spaceState?_blank (h : Text.isBlank c = true ∨ c = ',') :
    spaceState? false c = some false := by
  have hsemicolon : c ≠ ';' := by
    rintro rfl
    rcases h with h | h
    · cases h
    · cases h
  rcases h with h | h <;> simp [spaceState?, h, hsemicolon]

theorem spaceState?_cases {running : Bool} (h : spaceState? false c = some running) :
    (c = ';' ∧ running = true) ∨ ((Text.isBlank c = true ∨ c = ',') ∧ running = false) := by
  unfold spaceState? at h
  rw [if_neg Bool.false_ne_true] at h
  split at h
  · next hc => exact .inl ⟨hc, (Option.some.inj h).symm⟩
  · split at h
    · next hc => exact .inr ⟨by simpa using hc, (Option.some.inj h).symm⟩
    · cases h

theorem spaceState?_comment (h : c ≠ '\n') : spaceState? true c = some true := by
  simp [spaceState?, h]

theorem skipSpace_unfinished (h : '\n' ∉ line) : skipSpace true line = ⟨(), line, []⟩ := by
  induction line with
  | nil => rfl
  | cons c line ih =>
    simp only [List.mem_cons, not_or] at h
    rw [skipSpace_some (spaceState?_comment (Ne.symm h.1)), ih h.2]
    rfl

theorem skipSpace_comment (h : '\n' ∉ line) (cs : List Char) :
    skipSpace true (line ++ '\n' :: cs) = (skipSpace false cs).prepend (line ++ ['\n']) :=
  skipSpace_append_end (by rw [skipSpace_unfinished h]) cs

theorem Separator.skipSpace (h : Separator w) (cs : List Char) :
    skipSpace false (w ++ cs) = (skipSpace false cs).prepend w := by
  induction h with
  | nil => rfl
  | @blank c w hc _ ih =>
    rw [List.cons_append, skipSpace_some (spaceState?_blank hc), ih]
    rfl
  | @comment line w hline _ ih =>
    have hwhole : (';' :: (line ++ '\n' :: w)) ++ cs = ';' :: (line ++ '\n' :: (w ++ cs)) := by simp
    rw [hwhole, skipSpace_some rfl, skipSpace_comment hline, ih]
    simp [Split.prepend]

theorem Separator.first? (h : Separator w) (cs : List Char) :
    Scan.first? (w ++ cs) = (Scan.first? cs).map (Split.prepend w) := by
  unfold Scan.first?
  rw [h.skipSpace cs]
  generalize SmallLisp.skipSpace false cs = s
  obtain ⟨_, space, rest⟩ := s
  cases rest with
  | nil => rfl
  | cons c rest => simp [Split.prepend]

/-- What is found behind a separator is what is found there alone. -/
theorem Separator.scans (h : Separator w) (cs : List Char) :
    SmallLisp.scans (w ++ cs) = SmallLisp.scans cs := by
  have hfirst := h.first? cs
  cases hcs : Scan.first? cs with
  | none =>
    rw [hcs] at hfirst
    rw [scans_none hfirst, scans_none hcs]
  | some scan =>
    rw [hcs] at hfirst
    rw [scans_some hfirst, scans_some hcs]
    rfl

/-! ### Texts of space -/

theorem first?_of_rest (h : (skipSpace false cs).rest = []) : Scan.first? cs = none := by
  unfold Scan.first?
  cases hskip : skipSpace false cs with
  | mk _ space rest =>
    rw [hskip] at h
    cases h
    rfl

theorem Separator.append (h : Separator w) (hs : Separator cs) : Separator (w ++ cs) := by
  induction h with
  | nil => exact hs
  | blank hc _ ih => exact .blank hc ih
  | comment hline _ ih =>
    rw [List.cons_append, List.append_assoc, List.cons_append]
    exact .comment hline ih

theorem IsSpace.behind (h : Separator w) (hs : IsSpace cs) : IsSpace (w ++ cs) := by
  rcases hs with hs | ⟨front, line, hfront, hline, rfl⟩
  · exact .inl (h.append hs)
  · exact .inr ⟨w ++ front, line, h.append hfront, hline, (List.append_assoc _ _ _).symm⟩

/-- A text that is skipped to its end is space. A comment in it is taken as a whole. -/
theorem isSpace_of_skipSpace (h : (skipSpace false cs).rest = []) : IsSpace cs := by
  generalize hn : cs.length = n
  induction n using Nat.strongRecOn generalizing cs with
  | ind n ih =>
    cases cs with
    | nil => exact .inl .nil
    | cons c cs =>
      cases hstate : spaceState? false c with
      | none =>
        rw [skipSpace_none hstate] at h
        cases h
      | some running =>
        rw [skipSpace_some hstate] at h
        rcases spaceState?_cases hstate with ⟨rfl, rfl⟩ | ⟨hc, rfl⟩
        · by_cases hnewline : '\n' ∈ cs
          · obtain ⟨line, back, rfl, hline⟩ := List.eq_append_cons_of_mem hnewline
            rw [skipSpace_comment hline] at h
            have hlength : back.length < n := by
              rw [← hn, List.length_cons, List.length_append, List.length_cons]
              omega
            have hcomment : Separator (';' :: (line ++ ['\n'])) := .comment hline .nil
            have hspace := (ih _ hlength h rfl).behind hcomment
            rwa [List.cons_append, List.append_assoc] at hspace
          · exact .inr ⟨[], cs, .nil, hnewline, rfl⟩
        · have hlength : cs.length < n := by
            rw [← hn]
            exact Nat.lt_succ_self _
          exact (ih _ hlength h rfl).behind (.blank hc .nil)

/-- Nothing is found in a text exactly if it is nothing but space. -/
theorem first?_eq_none_iff : Scan.first? cs = none ↔ IsSpace cs := by
  constructor
  · exact fun h => isSpace_of_skipSpace (rest_skipSpace_of_none h)
  · rintro (h | ⟨front, line, hfront, hline, rfl⟩)
    · have hfirst := h.first? []
      rwa [List.append_nil] at hfirst
    · have hcomment : Scan.first? (';' :: line) = none :=
        first?_of_rest (by rw [skipSpace_some rfl, skipSpace_unfinished hline]; rfl)
      rw [hfront.first?, hcomment]
      rfl

end

end SmallLisp
