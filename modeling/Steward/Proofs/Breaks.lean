import Steward.Proofs.Constitution
import Steward.Proofs.Fix.Convergence

/-!
# Lines and their ends

`Text.lines` forgets how a line ends. `Text.pieces` keeps it, so that a text is the composition of
its pieces, `Text.compose_pieces`. Lines that are joined with one break are composed of pieces that
end alike, but for the last; a text whose breaks are alike is of that form itself,
`Text.pieces_eq_terminate`.
-/

namespace Steward

open List

namespace Text

/-- How a line ends; only the last one of a text may have no break. -/
inductive Ending where
  | lf
  | crlf
  | missing
deriving DecidableEq, Repr

namespace Ending

def text : Ending → List Char
  | lf => ['\n']
  | crlf => ['\r', '\n']
  | missing => []

theorem exists_text_eq {br : Ending} (h : br ≠ .missing) : ∃ cs, br.text = cs ++ ['\n'] := by
  cases br with
  | lf => exact ⟨[], rfl⟩
  | crlf => exact ⟨['\r'], rfl⟩
  | missing => exact absurd rfl h

end Ending

/-- A line with its end. -/
abbrev Piece := Line × Ending

/-- The line read so far, last character first, once its `LF` is met. -/
def endPiece : List Char → Piece
  | '\r' :: cs => (cs.reverse, .crlf)
  | cs => (cs.reverse, .lf)

/-- The pieces of a text, given the line under way, last character first. -/
def piecesFrom (current : List Char) : List Char → List Piece
  | [] => if current.isEmpty then [] else [(current.reverse, .missing)]
  | c :: cs =>
    if c = '\n' then endPiece current :: piecesFrom [] cs else piecesFrom (c :: current) cs

variable {text current : List Char} {xs : List Line} {br : Ending}

/-- The lines of a text with their ends. -/
def pieces (text : List Char) : List Piece := piecesFrom [] text

/-- How the lines of a text end. -/
def endings (text : List Char) : List Ending := (pieces text).map Prod.snd

/-- The text of some pieces. -/
def compose (ps : List Piece) : List Char := ps.flatMap fun p => p.1 ++ p.2.text

@[simp]
theorem compose_nil : compose [] = [] := rfl

@[simp]
theorem compose_cons (p : Piece) (ps : List Piece) :
    compose (p :: ps) = p.1 ++ (p.2.text ++ compose ps) := by
  rw [compose, flatMap_cons, append_assoc]
  rfl

@[simp]
theorem compose_append (ps qs : List Piece) : compose (ps ++ qs) = compose ps ++ compose qs :=
  flatMap_append

theorem mem_compose {c : Char} {ps : List Piece} :
    c ∈ compose ps ↔ ∃ p ∈ ps, c ∈ p.1 ∨ c ∈ p.2.text := by
  simp only [compose, mem_flatMap, mem_append]

theorem endPiece_spec (current : List Char) : (endPiece current).1 = endLine current ∧
    (endPiece current).2 ≠ .missing ∧
    (endPiece current).1 ++ (endPiece current).2.text = current.reverse ++ ['\n'] := by
  unfold endPiece endLine
  split <;> simp [Ending.text]

/-! ## The pieces of a text -/

theorem piecesFrom_fst (current text : List Char) :
    (piecesFrom current text).map Prod.fst = linesFrom [] current text := by
  induction text generalizing current with
  | nil => cases current <;> rfl
  | cons c cs ih =>
    rw [piecesFrom, linesFrom]
    split_ifs
    · rw [map_cons, ih, linesFrom_eq_append [endLine current], (endPiece_spec current).1]
      rfl
    · exact ih _

theorem pieces_fst (text : List Char) : (pieces text).map Prod.fst = lines text :=
  piecesFrom_fst [] text

theorem compose_piecesFrom (current text : List Char) :
    compose (piecesFrom current text) = current.reverse ++ text := by
  induction text generalizing current with
  | nil => cases current <;> simp [piecesFrom, Ending.text]
  | cons c cs ih =>
    rw [piecesFrom]
    split_ifs with hc
    · rw [compose_cons, ih, ← append_assoc, (endPiece_spec current).2.2, hc]
      simp
    · rw [ih]
      simp

/-- A text is composed of its pieces. -/
theorem compose_pieces (text : List Char) : compose (pieces text) = text :=
  compose_piecesFrom [] text

theorem mem_of_mem_lines {line : Line} (hline : line ∈ lines text) {c : Char} (hc : c ∈ line) :
    c ∈ text := by
  rw [← pieces_fst] at hline
  obtain ⟨p, hp, rfl⟩ := mem_map.1 hline
  rw [← compose_pieces text]
  exact mem_compose.2 ⟨p, hp, .inl hc⟩

theorem lines_zip_endings (text : List Char) : (lines text).zip (endings text) = pieces text := by
  rw [← pieces_fst, endings, zip_map']
  exact map_id _

theorem piecesFrom_ne_nil (current : List Char) (h : text ≠ []) : piecesFrom current text ≠ [] := by
  intro hnil
  have hcompose := compose_piecesFrom current text
  rw [hnil, compose_nil, eq_comm, append_eq_nil_iff] at hcompose
  exact h hcompose.2

/-! ## The break of a text -/

/-- The break that a text is written with: `CR LF` if one of its lines ends so, else `LF`. -/
def breakOf (text : List Char) : Ending := if .crlf ∈ endings text then .crlf else .lf

theorem breakOf_ne_missing (text : List Char) : breakOf text ≠ .missing := by
  rw [breakOf]
  split_ifs <;> simp

theorem crlf_mem_piecesFrom (current pre post : List Char) :
    .crlf ∈ (piecesFrom current (pre ++ '\r' :: '\n' :: post)).map Prod.snd := by
  induction pre generalizing current with
  | nil => simp [piecesFrom, endPiece]
  | cons c cs ih =>
    rw [cons_append, piecesFrom]
    split_ifs
    · exact mem_cons_of_mem _ (ih [])
    · exact ih _

theorem crlf_mem_endings_iff : .crlf ∈ endings text ↔ contains ['\r', '\n'] text := by
  rw [contains_iff]
  constructor
  · intro h
    obtain ⟨p, hp, hend⟩ := mem_map.1 h
    obtain ⟨ps, qs, hsplit⟩ := append_of_mem hp
    refine ⟨compose ps ++ p.1, compose qs, ?_⟩
    conv_rhs => rw [← compose_pieces text, hsplit]
    simp [hend, Ending.text]
  · rintro ⟨pre, post, rfl⟩
    rw [append_assoc]
    exact crlf_mem_piecesFrom [] pre post

theorem newlineOf_eq (text : List Char) : Fix.newlineOf text = (breakOf text).text := by
  rw [Fix.newlineOf, breakOf]
  split_ifs with h h' h'
  · rfl
  · exact absurd (crlf_mem_endings_iff.2 h) h'
  · exact absurd (crlf_mem_endings_iff.1 h') h
  · rfl

/-! ## Lines that end alike -/

/-- Lines that end with one break, but for the last. -/
def terminate (br last : Ending) : List Line → List Piece
  | [] => []
  | [x] => [(x, last)]
  | x :: y :: xs => (x, br) :: terminate br last (y :: xs)

theorem terminate_concat (br last : Ending) (xs : List Line) (x : Line) :
    terminate br last (xs ++ [x]) = xs.map (·, br) ++ [(x, last)] := by
  induction xs with
  | nil => rfl
  | cons y ys ih => cases ys <;> simp_all [terminate]

theorem terminate_self (br : Ending) (xs : List Line) : terminate br br xs = xs.map (·, br) := by
  obtain rfl | ⟨ys, y, rfl⟩ := xs.eq_nil_or_concat
  · rfl
  · rw [concat_eq_append, terminate_concat, map_append]
    rfl

theorem terminate_fst (br last : Ending) (xs : List Line) :
    (terminate br last xs).map Prod.fst = xs := by
  obtain rfl | ⟨ys, y, rfl⟩ := xs.eq_nil_or_concat
  · rfl
  · rw [concat_eq_append, terminate_concat]
    simp [Function.comp_def]

/-- How lines end depends on their number only. -/
theorem zip_terminate_snd (br last : Ending) {ys : List Line} (h : xs.length = ys.length) :
    xs.zip ((terminate br last ys).map Prod.snd) = terminate br last xs := by
  obtain rfl | ⟨xs, x, rfl⟩ := xs.eq_nil_or_concat
  · rfl
  obtain rfl | ⟨ys, y, rfl⟩ := ys.eq_nil_or_concat
  · simp at h
  have h : xs.length = ys.length := by simpa using h
  have hends : ys.map (fun _ ↦ br) = xs.map fun _ ↦ br := by
    rw [map_const', map_const', h]
  have hzip : xs.zip (xs.map fun _ ↦ br) = xs.map (·, br) := by
    simpa using zip_map' (f := id) (g := fun _ ↦ br) (l := xs)
  rw [concat_eq_append, concat_eq_append, terminate_concat, terminate_concat,
    map_append, map_map, zip_append (by simpa using h), Function.comp_def, hends, hzip]
  rfl

/-- Lines put in before the last one end with the break, and the others end as before. -/
theorem terminate_insert (br last : Ending) {a : Nat} (added : List Line)
    (h : added = [] ∨ a < xs.length ∨ last = br) :
    terminate br last (xs.take a ++ added ++ xs.drop a) =
      (terminate br last xs).take a ++ added.map (·, br) ++ (terminate br last xs).drop a := by
  rcases h with rfl | ha | rfl
  · simp
  · obtain ⟨ys, y, rfl⟩ : ∃ ys y, xs = ys ++ [y] :=
      ⟨_, _, (dropLast_append_getLast (ne_nil_of_length_pos (by omega))).symm⟩
    have ha : a ≤ ys.length := by simpa using ha
    rw [terminate_concat, take_append_of_le_length ha, drop_append_of_le_length ha,
      take_append_of_le_length (by simpa using ha),
      drop_append_of_le_length (by simpa using ha), ← append_assoc, terminate_concat]
    simp
  · simp [terminate_self]

/-- Joined lines end with the break, but for the last where it is not wanted. -/
theorem joinLines_eq_compose (trailing : Bool) (h : xs ≠ []) :
    Fix.joinLines br.text trailing xs =
      compose (terminate br (if trailing then br else .missing) xs) := by
  induction xs with
  | nil => exact absurd rfl h
  | cons x xs ih =>
    cases xs with
    | nil => cases trailing <;> simp [Fix.joinLines, terminate, Ending.text]
    | cons y ys =>
      rw [terminate, compose_cons, ← ih (by simp)]
      simp [Fix.joinLines]

/-- Whether all breaks of a text are alike. -/
def Alike (text : List Char) : Prop := .lf ∈ endings text → .crlf ∉ endings text

instance (text : List Char) : Decidable (Alike text) :=
  inferInstanceAs (Decidable (.lf ∈ endings text → .crlf ∉ endings text))

/-- How the last line of a text ends, if its breaks are `br`. -/
def lastEnding (br : Ending) (text : List Char) : Ending :=
  if text.getLast? = some '\n' then br else .missing

theorem lastEnding_ne_missing_iff (hbr : br ≠ .missing) :
    lastEnding br text ≠ .missing ↔ text.getLast? = some '\n' := by
  rw [lastEnding]
  split_ifs with h
  · exact iff_of_true hbr h
  · exact iff_of_false (not_not.2 rfl) h

theorem piecesFrom_eq_terminate (h : ∀ p ∈ piecesFrom current text, p.2 = .missing ∨ p.2 = br) :
    piecesFrom current text =
      terminate br (lastEnding br text) ((piecesFrom current text).map Prod.fst) := by
  induction text generalizing current with
  | nil => cases current <;> rfl
  | cons c cs ih =>
    rw [piecesFrom] at h ⊢
    split_ifs at h ⊢ with hc
    · obtain ⟨hend, h⟩ := forall_mem_cons.1 h
      have hend := hend.resolve_left (endPiece_spec current).2.1
      have ih := ih h
      cases cs with
      | nil => simp [piecesFrom, terminate, lastEnding, hc, ← hend]
      | cons d ds =>
        have hlast : lastEnding br (c :: d :: ds) = lastEnding br (d :: ds) := by
          rw [lastEnding, lastEnding, getLast?_cons_cons]
        obtain ⟨p, ps, hps⟩ :=
          exists_cons_of_ne_nil (piecesFrom_ne_nil [] (cons_ne_nil d ds))
        rw [hps, map_cons] at ih ⊢
        rw [hlast, map_cons, terminate, ← ih, ← hend]
    · have hlast : lastEnding br (c :: cs) = lastEnding br cs := by
        cases cs with
        | nil => simp [lastEnding, hc]
        | cons d ds => rw [lastEnding, lastEnding, getLast?_cons_cons]
      rw [hlast]
      exact ih h

/-- A text whose breaks are alike consists of lines that end alike, but for the last. -/
theorem pieces_eq_terminate (h : Alike text) :
    pieces text = terminate (breakOf text) (lastEnding (breakOf text) text) (lines text) := by
  rw [← pieces_fst]
  refine piecesFrom_eq_terminate fun p hp ↦ ?_
  have hmem : p.2 ∈ endings text := mem_map_of_mem hp
  rw [breakOf]
  cases hend : p.2 with
  | missing => exact .inl rfl
  | lf => rw [if_neg (h (hend ▸ hmem))]; exact .inr rfl
  | crlf => rw [if_pos (hend ▸ hmem)]; exact .inr rfl

/-! ## Reading lines back -/

/-- Whether every `CR` of a text is part of a break. -/
def returnsPaired : List Char → Bool
  | [] => true
  | c :: cs => (c != '\r' || cs.head? = some '\n') && returnsPaired cs

theorem return_notMem_of_mem_piecesFrom (h : returnsPaired text)
    (hcurrent : '\r' ∉ current ∨ ∃ cs, current = '\r' :: cs ∧ '\r' ∉ cs ∧ text.head? = some '\n') :
    ∀ p ∈ piecesFrom current text, '\r' ∉ p.1 := by
  induction text generalizing current with
  | nil =>
    obtain hcurrent | ⟨_, -, -, hhead⟩ := hcurrent
    · rw [piecesFrom]
      split_ifs
      · simp
      · simpa using hcurrent
    · cases hhead
  | cons c cs ih =>
    rw [returnsPaired, Bool.and_eq_true, Bool.or_eq_true, bne_iff_ne, decide_eq_true_iff] at h
    rw [piecesFrom]
    split_ifs with hc
    · refine forall_mem_cons.2 ⟨?_, ih h.2 (.inl (by simp))⟩
      rw [(endPiece_spec current).1]
      obtain hcurrent | ⟨ds, rfl, hds, -⟩ := hcurrent
      · intro hmem
        obtain hline | hline := endLine_cases current
        · exact hcurrent (mem_reverse.1 (hline ▸ hmem))
        · exact hcurrent (mem_reverse.1 (hline ▸ mem_append_left _ hmem))
      · simpa [endLine] using hds
    · refine ih h.2 ?_
      obtain hcurrent | ⟨ds, rfl, -, hhead⟩ := hcurrent
      · by_cases hreturn : c = '\r'
        · exact .inr ⟨current, by rw [hreturn], hcurrent, h.1.resolve_left (not_not.2 hreturn)⟩
        · exact .inl (by simp [hcurrent, Ne.symm hreturn])
      · exact absurd (Option.some.inj hhead) hc

theorem return_notMem_of_mem_lines (h : returnsPaired text) {line : Line}
    (hline : line ∈ lines text) : '\r' ∉ line := by
  rw [← pieces_fst] at hline
  obtain ⟨p, hp, rfl⟩ := mem_map.1 hline
  exact return_notMem_of_mem_piecesFrom h (.inl (by simp)) p hp

/-- A line without a break is not empty. -/
theorem ne_nil_of_getLast?_piecesFrom (htext : text.getLast? ≠ some '\n') :
    ∀ p ∈ (piecesFrom current text).getLast?, p.1 ≠ [] := by
  induction text generalizing current with
  | nil => cases current <;> simp [piecesFrom]
  | cons c cs ih =>
    rw [piecesFrom]
    cases cs with
    | nil =>
      rw [if_neg (by simpa using htext)]
      simp [piecesFrom]
    | cons d ds =>
      rw [getLast?_cons_cons] at htext
      split_ifs
      · obtain ⟨p, ps, hps⟩ :=
          exists_cons_of_ne_nil (piecesFrom_ne_nil [] (cons_ne_nil d ds))
        have ih : ∀ p ∈ (piecesFrom [] (d :: ds)).getLast?, p.1 ≠ [] := ih htext
        rw [hps] at ih ⊢
        rwa [getLast?_cons_cons]
      · exact ih htext

theorem ne_nil_of_getLast?_lines (htext : text.getLast? ≠ some '\n') :
    ∀ line ∈ (lines text).getLast?, line ≠ [] := by
  rw [← pieces_fst, getLast?_map]
  intro line hline
  obtain ⟨p, hp, rfl⟩ := Option.map_eq_some_iff.1 hline
  exact ne_nil_of_getLast?_piecesFrom htext p hp

/-- A line that has no break in it is read back, whichever break it was written with. -/
theorem lines_append_break (hbr : br ≠ .missing) {x : Line} (hnewline : '\n' ∉ x)
    (hreturn : '\r' ∉ x) (rest : List Char) : lines (x ++ (br.text ++ rest)) = x :: lines rest := by
  cases br with
  | missing => exact absurd rfl hbr
  | lf => exact lines_append_newline_cons hnewline (fun h ↦ hreturn (mem_of_getLast? h)) rest
  | crlf =>
    rw [lines, linesFrom_of_newline_notMem hnewline, append_nil, Ending.text,
      cons_append, singleton_append, linesFrom, if_neg (by decide), linesFrom_newline]
    simp [endLine]

/-- Lines that do not end in a return are read back. -/
theorem lines_flatMap_newline (hnewline : ∀ x ∈ xs, '\n' ∉ x)
    (hlast : ∀ x ∈ xs, x.getLast? ≠ some '\r') : lines (xs.flatMap (· ++ ['\n'])) = xs := by
  induction xs with
  | nil => rfl
  | cons x xs ih =>
    obtain ⟨hx, hnewline⟩ := forall_mem_cons.1 hnewline
    obtain ⟨hx', hlast⟩ := forall_mem_cons.1 hlast
    rw [flatMap_cons, append_assoc, singleton_append,
      lines_append_newline_cons hx hx', ih hnewline hlast]

/-- Lines without breaks in them are read back, if the last one has a break or is not empty. -/
theorem lines_compose_terminate {last : Ending} (hbr : br ≠ .missing)
    (hnewline : ∀ x ∈ xs, '\n' ∉ x) (hreturn : ∀ x ∈ xs, '\r' ∉ x)
    (hlast : last ≠ .missing ∨ ∀ x ∈ xs.getLast?, x ≠ []) :
    lines (compose (terminate br last xs)) = xs := by
  induction xs with
  | nil => rfl
  | cons x xs ih =>
    obtain ⟨hx, hnewline⟩ := forall_mem_cons.1 hnewline
    obtain ⟨hx', hreturn⟩ := forall_mem_cons.1 hreturn
    cases xs with
    | nil =>
      rw [terminate, compose_cons, compose_nil]
      by_cases hend : last = .missing
      · have hne : x ≠ [] := hlast.resolve_left (not_not.2 hend) x rfl
        rw [hend, Ending.text, append_nil, append_nil, lines,
          ← append_nil x, linesFrom_of_newline_notMem hx]
        simp [linesFrom, hne]
      · exact lines_append_break hend hx hx' []
    | cons y ys =>
      rw [terminate, compose_cons, lines_append_break hbr hx hx', ih hnewline hreturn]
      exact hlast.imp_right fun h z hz ↦ h z (by rwa [getLast?_cons_cons])

/-- Composed lines end with a break just if the last one does. -/
theorem getLast?_compose_terminate {last : Ending} (hne : xs ≠ []) (hnewline : ∀ x ∈ xs, '\n' ∉ x)
    (hlast : last ≠ .missing ∨ ∀ x ∈ xs.getLast?, x ≠ []) :
    (compose (terminate br last xs)).getLast? = some '\n' ↔ last ≠ .missing := by
  obtain ⟨ys, y, rfl⟩ : ∃ ys y, xs = ys ++ [y] := ⟨_, _, (dropLast_append_getLast hne).symm⟩
  rw [terminate_concat, compose_append, compose_cons, compose_nil, append_nil]
  by_cases hend : last = .missing
  · have hy : y ≠ [] := hlast.resolve_left (not_not.2 hend) y (by simp)
    rw [hend, Ending.text, append_nil, getLast?_append_of_ne_nil _ hy]
    have hmem : '\n' ∉ y := hnewline y (by simp)
    simpa using fun h ↦ hmem (mem_of_getLast? h)
  · obtain ⟨cs, hcs⟩ := Ending.exists_text_eq hend
    rw [hcs, ← append_assoc, ← append_assoc, getLast?_concat]
    simpa using hend

end Text

end Steward
