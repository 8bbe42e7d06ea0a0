import Mathlib
import Stack256.Proofs.Listing.Number
import Stack256.Proofs.Text.Pieces

/-!
# Stack256.Proofs.Listing.Line — the tokens of a line, and printed statements

White space at the ends of a line holds no token, in a comment or before one (`tokens_trim`,
`lineTokens_dropReturn`).  The text of a statement is its name and its operands with a space before
each of them (`text_eq`).  None of these tokens holds white space or a semicolon, so that they are
the tokens of the line; and each of them is read as what it was printed for.  Main statement: the
plan of the line is the instructions of the statement (`ofLine_text`).
-/

namespace Stack256.Listing

open Text

/-! ### White space -/

theorem tokens_cons_blank {c : Char} (h : isBlank c = true) (text : List Char) :
    tokens (c :: text) = tokens text := by
  simp [tokens, pieces, h]

theorem tokens_append_cons {c : Char} (hc : isBlank c = true) (s t : List Char) :
    tokens (s ++ c :: t) = tokens s ++ tokens t := by
  rw [tokens, pieces_append_cons hc, List.filter_append]
  rfl

theorem tokens_append_blank {c : Char} (hc : isBlank c = true) (u : List Char) :
    tokens (u ++ [c]) = tokens u :=
  (tokens_append_cons hc u []).trans (List.append_nil _)

theorem tokens_blanks_append {g : List Char} (hg : ∀ c ∈ g, isBlank c = true) (t : List Char) :
    tokens (g ++ t) = tokens t := by
  induction g with
  | nil => rfl
  | cons c g ih =>
    obtain ⟨hc, hg⟩ := List.forall_mem_cons.1 hg
    rw [List.cons_append, tokens_cons_blank hc, ih hg]

theorem tokens_append_blanks {g : List Char} (hg : ∀ c ∈ g, isBlank c = true) (s : List Char) :
    tokens (s ++ g) = tokens s := by
  rcases g with _ | ⟨c, g⟩
  · rw [List.append_nil]
  · obtain ⟨hc, hg⟩ := List.forall_mem_cons.1 hg
    have hrest := tokens_blanks_append hg []
    rw [List.append_nil] at hrest
    rw [tokens_append_cons hc, hrest]
    exact List.append_nil _

theorem tokens_trim (text : List Char) : tokens (trim text) = tokens text := by
  have hfront : tokens (text.takeWhile isBlank ++ text.dropWhile isBlank) =
      tokens (text.dropWhile isBlank) :=
    tokens_blanks_append (fun _ hc => List.mem_takeWhile_imp hc) _
  set rest := text.dropWhile isBlank
  have hback : tokens (rest.rdropWhile isBlank ++ rest.rtakeWhile isBlank) =
      tokens (rest.rdropWhile isBlank) :=
    tokens_append_blanks (fun _ hc => List.mem_rtakeWhile_imp hc) _
  rw [List.takeWhile_append_dropWhile] at hfront
  rw [List.rdropWhile_append_rtakeWhile] at hback
  exact (hfront.trans hback).symm

/-- White space at the end of a line asks for nothing, in a comment or before one. -/
theorem lineTokens_append_blank {c : Char} (hc : isBlank c = true) (line : List Char) :
    tokens (beforeComment (line ++ [c])) = tokens (beforeComment line) := by
  have hcut : (c != ';') = true := by
    rw [bne_iff_ne]
    rintro rfl
    cases hc
  rw [beforeComment, beforeComment, List.takeWhile_append]
  split_ifs with h
  · have hline : line.takeWhile (· != ';') = line :=
      (List.takeWhile_prefix _).eq_of_length h
    rw [hline, List.takeWhile_cons_of_pos (p := (· != ';')) hcut, List.takeWhile_nil,
      tokens_append_blank hc]
  · rfl

theorem lineTokens_dropReturn (line : List Char) :
    tokens (beforeComment (dropReturn line)) = tokens (beforeComment line) := by
  unfold dropReturn
  split_ifs with h
  · conv_rhs => rw [← List.dropLast_append_getLast? _ h]
    exact (lineTokens_append_blank (by rfl) _).symm
  · rfl

/-! ### Tokens -/

/-- The text can be a token: it is not empty and holds neither white space nor a semicolon. -/
def IsToken (t : List Char) : Prop :=
  t ≠ [] ∧ ∀ c ∈ t, isBlank c = false ∧ c ≠ ';'

theorem isToken_of_all {t : List Char} (hne : t ≠ [])
    (h : (t.all fun c => !isBlank c && c != ';') = true) : IsToken t := by
  refine ⟨hne, fun c hc => ?_⟩
  have := List.all_eq_true.1 h c hc
  rwa [Bool.and_eq_true, Bool.not_eq_true', bne_iff_ne] at this

theorem not_blank_of_isToken {t : List Char} (h : IsToken t) : ∀ c ∈ t, isBlank c = false :=
  fun c hc => (h.2 c hc).1

theorem tokens_join {t : List Char} {ts : List (List Char)} (ht : IsToken t)
    (hts : ∀ u ∈ ts, IsToken u) :
    tokens (beforeComment (t ++ ts.flatMap (' ' :: ·))) = t :: ts := by
  have hline : ∀ c ∈ t ++ ts.flatMap (' ' :: ·), (c != ';') = true := by
    intro c hc
    rw [bne_iff_ne]
    obtain hc | hc := List.mem_append.1 hc
    · exact (ht.2 c hc).2
    · obtain ⟨u, hu, hc⟩ := List.mem_flatMap.1 hc
      obtain rfl | hc := List.mem_cons.1 hc
      · decide
      · exact ((hts u hu).2 c hc).2
  have hne : ∀ u ∈ t :: ts, (!u.isEmpty) = true := by
    intro u hu
    rw [Bool.not_eq_true', List.isEmpty_eq_false_iff]
    obtain rfl | hu := List.mem_cons.1 hu
    · exact ht.1
    · exact (hts u hu).1
  rw [beforeComment, List.takeWhile_eq_self_iff.2 hline, tokens, pieces_join (by decide)
    (not_blank_of_isToken ht) fun u hu => not_blank_of_isToken (hts u hu),
    List.filter_eq_self.2 hne]

/-! ### Numbers -/

theorem isToken_of_digits? {base n : ℕ} {s : List Char} (h : digits? base s = some n) :
    IsToken s := by
  refine ⟨?_, fun c hc => ?_⟩
  · rintro rfl
    cases h
  · obtain ⟨d, hd⟩ := digit?_of_mem h hc
    have hx := hexDigit?_of_digit? hd
    refine ⟨not_blank_of_hexDigit? hx, ?_⟩
    rintro rfl
    cases hx

theorem isToken_text (base : Base) (n : ℕ) : IsToken (base.text n) := by
  cases base with
  | ten => exact isToken_of_digits? (digits?_toDigits (by decide : 1 < 10) (by decide) n)
  | sixteen =>
    have h := isToken_of_digits? (digits?_toDigits (by decide : 1 < 16) (by decide) n)
    refine ⟨List.cons_ne_nil _ _, ?_⟩
    rw [Base.text, List.forall_mem_cons, List.forall_mem_cons]
    exact ⟨by decide, by decide, h.2⟩

/-! ### Names -/

theorem isToken_mnemonic (o : Opcode) : IsToken o.mnemonic.toList := by
  refine isToken_of_all ?_ ?_
  · cases o <;> decide
  · cases o <;> rfl

theorem isToken_push : IsToken "PUSH".toList :=
  isToken_of_all (by decide) rfl

theorem isToken_byte : IsToken ".byte".toList :=
  isToken_of_all (by decide) rfl

theorem sameLetters_mnemonic_push (o : Opcode) :
    sameLetters o.mnemonic.toList "PUSH".toList = false := by
  cases o <;> decide

theorem widthInName?_mnemonic (o : Opcode) : widthInName? o.mnemonic.toList = none := by
  cases o <;> decide

theorem ofMnemonic?_mnemonic (o : Opcode) : Opcode.ofMnemonic? o.mnemonic.toList = some o := by
  cases o <;> decide

theorem head?_mnemonic (o : Opcode) : o.mnemonic.toList.head? ≠ some '.' := by
  cases o <;> decide

theorem isToken_widthName (width : ℕ) : IsToken ("PUSH".toList ++ Nat.toDigits 10 width) := by
  have h := isToken_of_digits? (digits?_toDigits (by decide : 1 < 10) (by decide) width)
  refine ⟨List.append_ne_nil_of_right_ne_nil _ h.1, fun c hc => ?_⟩
  obtain hc | hc := List.mem_append.1 hc
  · exact isToken_push.2 c hc
  · exact h.2 c hc

theorem sameLetters_widthName_push (width : ℕ) :
    sameLetters ("PUSH".toList ++ Nat.toDigits 10 width) "PUSH".toList = false := by
  -- texts of different lengths differ in more than letter case
  rw [Bool.eq_false_iff, ne_eq, sameLetters_iff]
  intro h
  have hlen := congrArg List.length h
  rw [List.length_map, List.length_map, List.length_append] at hlen
  have hpos : 0 < (Nat.toDigits 10 width).length := Nat.length_toDigits_pos
  omega

theorem widthInName?_widthName {width : ℕ} (h : 1 ≤ width ∧ width ≤ 32) :
    widthInName? ("PUSH".toList ++ Nat.toDigits 10 width) = some width := by
  have hn : numeral? 10 (Nat.toDigits 10 width) = some width :=
    numeral?_of_digits? (digits?_toDigits (by decide) (by decide) width)
  have htake : ("PUSH".toList ++ Nat.toDigits 10 width).take 4 = "PUSH".toList := rfl
  have hdrop : ("PUSH".toList ++ Nat.toDigits 10 width).drop 4 = Nat.toDigits 10 width := rfl
  rw [widthInName?, htake, hdrop, hn, if_pos (sameLetters_self _)]
  exact Option.filter_eq_some_iff.2 ⟨rfl, decide_eq_true h⟩

/-! ### Statements -/

namespace Statement

/-- The statement has a line of its own that says it: its width is the width of a push, and its
bytes are neither none nor more than a line can hold. -/
def Printable : Statement → Prop
  | sizedPush width _ _ => 1 ≤ width ∧ width ≤ 32
  | bytes values => 1 ≤ values.length ∧ values.length < tokenLimit
  | _ => True

/-- The first token of the line. -/
def name : Statement → List Char
  | op o => o.mnemonic.toList
  | push _ _ => "PUSH".toList
  | sizedPush width _ _ => "PUSH".toList ++ Nat.toDigits 10 width
  | bytes _ => ".byte".toList

/-- The tokens of the line behind the first. -/
def operands : Statement → List (List Char)
  | op _ => []
  | push base value | sizedPush _ base value => [base.text value.toNat]
  | bytes values => values.map fun (base, b) => base.text b.toNat

theorem text_eq (s : Statement) : s.text = s.name ++ s.operands.flatMap (' ' :: ·) := by
  cases s with
  | op o => exact (List.append_nil _).symm
  | push base value =>
    rw [operands, List.flatMap_singleton]
    rfl
  | sizedPush width base value =>
    rw [operands, List.flatMap_singleton]
    rfl
  | bytes values =>
    rw [operands, List.flatMap_map]
    rfl

theorem isToken_name (s : Statement) : IsToken s.name := by
  cases s with
  | op o => exact isToken_mnemonic o
  | push base value => exact isToken_push
  | sizedPush width base value => exact isToken_widthName width
  | bytes values => exact isToken_byte

theorem isToken_of_mem_operands {s : Statement} : ∀ u ∈ s.operands, IsToken u := by
  cases s with
  | op o => simp [operands]
  | push base value => simp [operands, isToken_text]
  | sizedPush width base value => simp [operands, isToken_text]
  | bytes values =>
    intro u hu
    obtain ⟨v, -, rfl⟩ := List.mem_map.1 hu
    exact isToken_text v.1 v.2.toNat

theorem tokens_text (s : Statement) : tokens (beforeComment s.text) = s.name :: s.operands := by
  rw [text_eq, tokens_join (isToken_name s) isToken_of_mem_operands]

/-! ### What the tokens stand for -/

theorem rawByte_text (base : Base) (b : UInt8) : rawByte (base.text b.toNat) = .ok (.raw b) := by
  have hb : b.toNat < 256 := b.toNat_lt
  have hw : (BitVec.ofNat 256 b.toNat).toNat = b.toNat := by
    rw [BitVec.toNat_ofNat, Nat.mod_eq_of_lt (by omega)]
  have hn := number?_text base (BitVec.ofNat 256 b.toNat)
  rw [hw] at hn
  simp only [rawByte, hn, hw]
  rw [if_pos (by omega), UInt8.ofNat_toNat]

theorem operand_text (base : Base) (value : Word) :
    operand [base.text value.toNat] = .ok value :=
  operand_eq_ok_iff.2 (number?_text base value)

theorem instruction_op (o : Opcode) : instruction o.mnemonic.toList [] = .ok (.op o) := by
  unfold instruction
  rw [sameLetters_mnemonic_push, widthInName?_mnemonic, ofMnemonic?_mnemonic]
  rfl

theorem instruction_push (base : Base) (value : Word) :
    instruction "PUSH".toList [base.text value.toNat] = .ok (.push value) := by
  rw [instruction, if_pos (sameLetters_self _), operand_text]
  rfl

theorem instruction_sizedPush {width : ℕ} (h : 1 ≤ width ∧ width ≤ 32) (base : Base)
    (value : Word) :
    instruction ("PUSH".toList ++ Nat.toDigits 10 width) [base.text value.toNat]
      = .ok (.sizedPush width value) := by
  unfold instruction
  rw [sameLetters_widthName_push, widthInName?_widthName h, operand_text]
  rfl

theorem ofTokens_of_head? {name : List Char} {operands : List (List Char)}
    (hname : name.head? ≠ some '.') (h : operands.length < tokenLimit) :
    Plan.ofTokens (name :: operands) = [instruction name operands] := by
  rw [Plan.ofTokens, if_neg (by omega), if_neg hname]

theorem one_lt_tokenLimit : 1 < tokenLimit := by decide

theorem ofTokens_pair {name : List Char} (hname : name.head? ≠ some '.') (token : List Char) :
    Plan.ofTokens [name, token] = [instruction name [token]] :=
  ofTokens_of_head? hname one_lt_tokenLimit

theorem ofDirective_bytes {values : List (Base × UInt8)} (h : values ≠ []) :
    Plan.ofDirective ".byte".toList (operands (.bytes values))
      = (instructions (.bytes values)).map .ok := by
  have hne : (operands (.bytes values)).isEmpty = false := by
    rw [operands, List.isEmpty_eq_false_iff]
    exact mt List.map_eq_nil_iff.1 h
  have hmap : (operands (.bytes values)).map rawByte = (instructions (.bytes values)).map .ok := by
    rw [operands, instructions, List.map_map, List.map_map]
    exact List.map_congr_left fun v _ => rawByte_text v.1 v.2
  rw [Plan.ofDirective, if_pos (sameLetters_self _), hne, if_neg Bool.false_ne_true, hmap]

/-- The plan of the tokens of a statement is what the statement stands for. -/
theorem ofTokens_statement {s : Statement} (h : s.Printable) :
    Plan.ofTokens (s.name :: s.operands) = s.instructions.map .ok := by
  cases s with
  | op o =>
    change Plan.ofTokens [o.mnemonic.toList] = [.ok (.op o)]
    rw [ofTokens_of_head? (head?_mnemonic o) (by decide), instruction_op]
  | push base value =>
    change Plan.ofTokens ["PUSH".toList, base.text value.toNat] = [.ok (.push value)]
    rw [ofTokens_pair (by decide), instruction_push]
  | sizedPush width base value =>
    have hhead : ("PUSH".toList ++ Nat.toDigits 10 width).head? ≠ some '.' := by
      rw [List.head?_append_of_ne_nil _ (by decide)]
      decide
    change Plan.ofTokens ["PUSH".toList ++ Nat.toDigits 10 width, base.text value.toNat]
      = [.ok (.sizedPush width value)]
    rw [ofTokens_pair hhead, instruction_sizedPush h]
  | bytes values =>
    obtain ⟨hpos, hlimit⟩ := h
    have hlen : (operands (.bytes values)).length = values.length := List.length_map _
    change Plan.ofTokens (".byte".toList :: operands (.bytes values)) = _
    rw [Plan.ofTokens, if_neg (by omega), if_pos (by rfl),
      ofDirective_bytes (List.ne_nil_of_length_pos hpos)]

/-- The line of a statement is read as what the statement stands for. -/
theorem ofLine_text {s : Statement} (h : s.Printable) :
    Plan.ofLine s.text = s.instructions.map .ok := by
  rw [Plan.ofLine, tokens_text, ofTokens_statement h]

end Statement

end Stack256.Listing
