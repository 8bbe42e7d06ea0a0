import Mathlib
import Stack256.Listing.Grammar
import Stack256.Proofs.Listing.Output

/-!
# Stack256.Proofs.Listing.Grammar — every line has the answer that the rules give it

The tokens of a text are those that it consists of (`spaced_iff`).  Each rule says what the plan of
the line writes (`output_of_reply`), and for each line there is a rule (`exists_reply`).  Main
statement: `lineAnswer_iff_feed`.
-/

namespace Stack256

namespace Listing

open Text

/-! ### Tokens -/

theorem tokens_append {t text : List Char} (hne : t ≠ []) (ht : ∀ c ∈ t, isBlank c = false)
    (htext : ∀ c ∈ text.head?, isBlank c = true) : tokens (t ++ text) = t :: tokens text := by
  rcases text with _ | ⟨c, text⟩
  · simp [tokens, pieces_of_all_not ht, hne, pieces]
  · have hc : isBlank c = true := htext c rfl
    rw [tokens_cons_blank hc, tokens, pieces_append hc ht, tokens, List.filter_cons_of_pos]
    simpa using hne

theorem spaced_tokens (text : List Char) : Spaced text (tokens text) := by
  -- a token is as long as it can be, and what is behind it is shorter than the text
  induction hn : text.length using Nat.strong_induction_on generalizing text with
  | _ n ih =>
    subst hn
    rcases text with _ | ⟨c, text⟩
    · exact .nil
    · by_cases hc : isBlank c = true
      · rw [tokens_cons_blank hc]
        exact .blank hc (ih _ (Nat.lt_succ_self _) text rfl)
      · set t := (c :: text).takeWhile (! isBlank ·) with ht
        set rest := (c :: text).dropWhile (! isBlank ·) with hrest
        have hsplit : c :: text = t ++ rest := List.takeWhile_append_dropWhile.symm
        have hne : t ≠ [] := by
          rw [ht, List.takeWhile_cons_of_pos (by simp [hc])]
          exact List.cons_ne_nil _ _
        have hblank : ∀ a ∈ t, isBlank a = false := fun a ha => by
          simpa using List.mem_takeWhile_imp ha
        have hhead : ∀ a ∈ rest.head?, isBlank a = true := by
          intro a ha
          have := List.head?_dropWhile_not (! isBlank ·) (c :: text)
          rw [← hrest, Option.mem_def.1 ha] at this
          simpa using this
        have hlt : rest.length < (c :: text).length := by
          have := List.length_pos_of_ne_nil hne
          rw [hsplit, List.length_append]
          omega
        rw [hsplit, tokens_append hne hblank hhead]
        exact .token hne hblank hhead (ih _ hlt rest rfl)

theorem spaced_iff {text : List Char} {ts : List (List Char)} :
    Spaced text ts ↔ tokens text = ts := by
  constructor
  · intro h
    induction h with
    | nil => rfl
    | blank hc _ ih => rw [tokens_cons_blank hc, ih]
    | token hne ht htext _ ih => rw [tokens_append hne ht htext, ih]
  · rintro rfl
    exact spaced_tokens text

/-! ### Names -/

theorem sameLetters_congr {s t : List Char} (h : sameLetters s t = true) (u : List Char) :
    sameLetters s u = sameLetters t u := by
  rw [sameLetters, sameLetters, (sameLetters_iff s t).1 h]

theorem sameLetters_comm (s t : List Char) : sameLetters s t = sameLetters t s := by
  rw [sameLetters, sameLetters, BEq.comm]

theorem length_eq_of_sameLetters {s t : List Char} (h : sameLetters s t = true) :
    s.length = t.length := by
  simpa using congrArg List.length ((sameLetters_iff s t).1 h)

theorem head?_eq_iff_of_sameLetters {s t : List Char} (h : sameLetters s t = true) {d : Char}
    (hd : d.isAlpha = false) : s.head? = some d ↔ t.head? = some d := by
  have hmap : ∀ u : List Char, u.head? = some d ↔ (u.map Char.toLower).head? = some d := by
    intro u
    rcases u with _ | ⟨c, u⟩
    · exact Iff.rfl
    · simp [toLower_eq_iff hd]
  rw [hmap s, hmap t, (sameLetters_iff s t).1 h]

theorem widthInName?_eq_some_iff {name : List Char} {width : ℕ} :
    widthInName? name = some width ↔ ∃ stem digits, name = stem ++ digits ∧
      sameLetters stem "PUSH".toList = true ∧ numeral? 10 digits = some width ∧
      1 ≤ width ∧ width ≤ 32 := by
  unfold widthInName?
  constructor
  · intro h
    split_ifs at h with hstem
    obtain ⟨hn, hw⟩ := Option.filter_eq_some_iff.1 h
    exact ⟨_, _, (List.take_append_drop 4 name).symm, hstem, hn, of_decide_eq_true hw⟩
  · rintro ⟨stem, digits, rfl, hstem, hn, hw⟩
    have hlen : stem.length = 4 := length_eq_of_sameLetters hstem
    rw [List.take_left' hlen, List.drop_left' hlen, if_pos hstem, hn]
    exact Option.filter_eq_some_iff.2 ⟨rfl, decide_eq_true hw⟩

/-- A name without a width is `PUSH` in four letters, behind which no digits are left. -/
theorem widthInName?_of_sameLetters_push {name : List Char}
    (h : sameLetters name "PUSH".toList = true) : widthInName? name = none := by
  have hlen : name.length = 4 := length_eq_of_sameLetters h
  rw [Option.eq_none_iff_forall_ne_some]
  intro width hw
  obtain ⟨stem, digits, rfl, hstem, hn, -⟩ := widthInName?_eq_some_iff.1 hw
  have hstemLen : stem.length = 4 := length_eq_of_sameLetters hstem
  have hdigits : digits = [] := by
    rw [List.length_append] at hlen
    exact List.eq_nil_of_length_eq_zero (by omega)
  rw [hdigits] at hn
  cases hn

theorem pushName_none_iff {name : List Char} :
    PushName name none ↔ sameLetters name "PUSH".toList = true :=
  ⟨fun h => by cases h; assumption, .plain⟩

theorem pushName_some_iff {name : List Char} {width : ℕ} :
    PushName name (some width) ↔ widthInName? name = some width := by
  rw [widthInName?_eq_some_iff]
  constructor
  · rintro (_ | ⟨hstem, hn, hlow, hhigh⟩)
    exact ⟨_, _, rfl, hstem, hn, hlow, hhigh⟩
  · rintro ⟨stem, digits, rfl, hstem, hn, hlow, hhigh⟩
    exact .sized hstem hn hlow hhigh

theorem width_bounds_of_pushName {name : List Char} {width : ℕ} (h : PushName name (some width)) :
    1 ≤ width ∧ width ≤ 32 := by
  rcases h with _ | ⟨-, -, hlow, hhigh⟩
  exact ⟨hlow, hhigh⟩

theorem head?_of_pushName {name : List Char} {width : Option ℕ} (h : PushName name width) :
    name.head? ≠ some '.' := by
  intro hhead
  rcases h with hname | ⟨hstem, -, -, -⟩
  · cases (head?_eq_iff_of_sameLetters hname rfl).1 hhead
  · rename_i stem digits width
    have hne : stem ≠ [] := by
      rintro rfl
      cases hstem
    rw [List.head?_append_of_ne_nil _ hne] at hhead
    cases (head?_eq_iff_of_sameLetters hstem rfl).1 hhead

theorem widthInName?_map_toLower (name : List Char) :
    widthInName? (name.map Char.toLower) = widthInName? name := by
  rw [widthInName?, widthInName?, ← List.map_take, ← List.map_drop, numeral?_map_toLower,
    sameLetters_map_toLower]

theorem widthInName?_congr {s t : List Char} (h : sameLetters s t = true) :
    widthInName? s = widthInName? t := by
  rw [← widthInName?_map_toLower s, (sameLetters_iff s t).1 h, widthInName?_map_toLower]

theorem ofMnemonic?_map_toLower (name : List Char) :
    Opcode.ofMnemonic? (name.map Char.toLower) = Opcode.ofMnemonic? name := by
  have hsame : ∀ o : Opcode, sameLetters o.mnemonic.toList (name.map Char.toLower) =
      sameLetters o.mnemonic.toList name := fun o => by
    rw [sameLetters_comm, sameLetters_map_toLower, sameLetters_comm]
  simp only [Opcode.ofMnemonic?, hsame]

theorem ofMnemonic?_congr {s t : List Char} (h : sameLetters s t = true) :
    Opcode.ofMnemonic? s = Opcode.ofMnemonic? t := by
  rw [← ofMnemonic?_map_toLower s, (sameLetters_iff s t).1 h, ofMnemonic?_map_toLower]

/-! ### Instructions -/

variable {name : List Char} {operands : List (List Char)}

theorem instruction_of_pushName {width : Option ℕ} (h : PushName name width)
    (operands : List (List Char)) :
    instruction name operands = (operand operands).map (pushOf width) := by
  rcases width with _ | width
  · rw [instruction, if_pos (pushName_none_iff.1 h)]
    rfl
  · have hw := pushName_some_iff.1 h
    have hplain : sameLetters name "PUSH".toList = false := by
      rw [Bool.eq_false_iff]
      intro hname
      rw [widthInName?_of_sameLetters_push hname] at hw
      cases hw
    rw [instruction, hplain, hw]
    rfl

theorem instruction_of_mnemonic {o : Opcode} (h : sameLetters o.mnemonic.toList name = true)
    (operands : List (List Char)) :
    instruction name operands =
      if operands.isEmpty then .ok (.op o) else .error .tooManyOperands := by
  have hplain : sameLetters name "PUSH".toList = false := by
    rw [← sameLetters_congr h, sameLetters_mnemonic_push]
  have hsized : widthInName? name = none := by
    rw [← widthInName?_congr h, widthInName?_mnemonic]
  have hop : Opcode.ofMnemonic? name = some o := by
    rw [← ofMnemonic?_congr h, ofMnemonic?_mnemonic]
  rw [instruction, hplain, hsized, hop]
  rfl

theorem instruction_of_unknown (hpush : ∀ width, ¬ PushName name width)
    (hop : ∀ o : Opcode, sameLetters o.mnemonic.toList name = false)
    (operands : List (List Char)) : instruction name operands = .error .unknownInstruction := by
  have hplain : sameLetters name "PUSH".toList = false :=
    Bool.eq_false_iff.2 fun h => hpush none (pushName_none_iff.2 h)
  have hsized : widthInName? name = none :=
    Option.eq_none_iff_forall_ne_some.2 fun width h => hpush (some width) (pushName_some_iff.2 h)
  have hnone : Opcode.ofMnemonic? name = none := by
    rw [Opcode.ofMnemonic?, List.find?_eq_none]
    intro o _
    rw [hop o]
    exact Bool.false_ne_true
  rw [instruction, hplain, hsized, hnone]
  rfl

theorem head?_of_mnemonic {o : Opcode} (h : sameLetters o.mnemonic.toList name = true) :
    name.head? ≠ some '.' := fun hhead =>
  head?_mnemonic o ((head?_eq_iff_of_sameLetters h rfl).2 hhead)

/-! ### Bytes -/

theorem rawByte_of_standsFor {token : List Char} {byte : UInt8} (h : StandsFor token byte) :
    rawByte token = .ok (.raw byte) := by
  obtain ⟨value, hn, hv⟩ := h
  have hle : byte.toNat ≤ 255 := Nat.le_of_lt_succ byte.toNat_lt
  simp only [rawByte, hn, hv, hle, if_true, UInt8.ofNat_toNat]

theorem rawByte_of_not_standsFor {token : List Char} (h : ∀ byte, ¬ StandsFor token byte) :
    rawByte token = .error .badNumber := by
  rw [rawByte]
  cases hn : number? token with
  | none => rfl
  | some value =>
    refine if_neg fun hle => h (UInt8.ofNat value.toNat) ⟨value, hn, ?_⟩
    rw [UInt8.toNat_ofNat', Nat.mod_eq_of_lt (by omega)]

/-- The operands before one are written before it. -/
theorem output_rawBytes_append {pre : List (List Char)} {out : List UInt8}
    (h : List.Forall₂ StandsFor pre out) {room : ℕ} (hroom : out.length ≤ room) (p : Plan) :
    Plan.output (pre.map rawByte ++ p) room =
      ((p.output (room - out.length)).1, out ++ (p.output (room - out.length)).2) := by
  induction h generalizing room with
  | nil => rfl
  | @cons token byte pre out htoken _ ih =>
    have hbyte : (Instruction.raw byte).output room = .ok [byte] :=
      if_pos (Nat.lt_of_lt_of_le (Nat.succ_pos _) hroom)
    have hrest : out.length ≤ room - 1 := by
      rw [List.length_cons] at hroom
      omega
    have hsub : room - (byte :: out).length = room - 1 - out.length := by
      rw [List.length_cons]
      omega
    rw [List.map_cons, List.cons_append, rawByte_of_standsFor htoken, Plan.output_ok_of_ok hbyte,
      List.length_singleton, ih hrest, hsub]
    rfl

/-- Operands are bytes for which there is room, or have a first that is no byte or finds no room. -/
theorem standsFor_cases (operands : List (List Char)) (room : ℕ) :
    (∃ out, List.Forall₂ StandsFor operands out ∧ out.length ≤ room) ∨
    ∃ pre token post out, operands = pre ++ token :: post ∧ List.Forall₂ StandsFor pre out ∧
      ((out.length ≤ room ∧ ∀ byte, ¬ StandsFor token byte) ∨
        (out.length = room ∧ ∃ byte, StandsFor token byte)) := by
  induction operands generalizing room with
  | nil => exact .inl ⟨[], .nil, Nat.zero_le _⟩
  | cons token operands ih =>
    by_cases htoken : ∃ byte, StandsFor token byte
    · obtain ⟨byte, hbyte⟩ := htoken
      rcases room with _ | room
      · exact .inr ⟨[], token, operands, [], rfl, .nil, .inr ⟨rfl, byte, hbyte⟩⟩
      · rcases ih room with ⟨out, hall, hlen⟩ | ⟨pre, t, post, out, rfl, hpre, hfail⟩
        · exact .inl ⟨byte :: out, .cons hbyte hall, Nat.succ_le_succ hlen⟩
        · refine .inr ⟨token :: pre, t, post, byte :: out, rfl, .cons hbyte hpre, ?_⟩
          exact hfail.imp (And.imp_left Nat.succ_le_succ) (And.imp_left (congrArg (· + 1)))
    · exact .inr ⟨[], token, operands, [], rfl, .nil, .inl ⟨Nat.zero_le _, not_exists.1 htoken⟩⟩

/-! ### The rules -/

theorem ofTokens_cons (hlen : (name :: operands).length ≤ tokenLimit) :
    Plan.ofTokens (name :: operands) =
      if name.head? = some '.' then Plan.ofDirective name operands
      else [instruction name operands] := by
  rw [List.length_cons] at hlen
  rw [Plan.ofTokens, if_neg (not_lt.2 hlen)]

theorem head?_of_byte (h : sameLetters name ".byte".toList = true) : name.head? = some '.' :=
  (head?_eq_iff_of_sameLetters h (by rfl)).2 rfl

theorem ofTokens_byte (hlen : (name :: operands).length ≤ tokenLimit)
    (hname : sameLetters name ".byte".toList = true) (hne : operands ≠ []) :
    Plan.ofTokens (name :: operands) = operands.map rawByte := by
  rw [ofTokens_cons hlen, if_pos (head?_of_byte hname), Plan.ofDirective, if_pos hname,
    List.isEmpty_eq_false_iff.2 hne, if_neg Bool.false_ne_true]

theorem ofTokens_instruction (hlen : (name :: operands).length ≤ tokenLimit)
    (hname : name.head? ≠ some '.') :
    Plan.ofTokens (name :: operands) = [instruction name operands] := by
  rw [ofTokens_cons hlen, if_neg hname]

theorem ofTokens_push {width : Option ℕ} (hlen : (name :: operands).length ≤ tokenLimit)
    (hname : PushName name width) :
    Plan.ofTokens (name :: operands) = [(operand operands).map (pushOf width)] := by
  rw [ofTokens_instruction hlen (head?_of_pushName hname), instruction_of_pushName hname]

theorem ofTokens_op {o : Opcode} (hlen : (name :: operands).length ≤ tokenLimit)
    (hname : sameLetters o.mnemonic.toList name = true) :
    Plan.ofTokens (name :: operands) =
      [if operands.isEmpty then .ok (.op o) else .error .tooManyOperands] := by
  rw [ofTokens_instruction hlen (head?_of_mnemonic hname), instruction_of_mnemonic hname]

theorem output_error (e : LineError) (room : ℕ) (p : Plan) :
    Plan.output (.error e :: p) room = (some e, []) := rfl

theorem output_singleton {i : Instruction} {room : ℕ} {code : List UInt8}
    (h : i.output room = .ok code) : Plan.output [.ok i] room = (none, code) := by
  rw [Plan.output_ok_of_ok h, Plan.output, List.append_nil]

variable {room : ℕ} {cause : Option LineError} {out : List UInt8}

theorem operand_of_one_lt_length (h : 1 < operands.length) :
    operand operands = .error .tooManyOperands := by
  match operands, h with
  | _ :: _ :: _, _ => rfl

/-- A line writes what a rule says. -/
theorem output_of_reply (h : Reply room name operands cause out)
    (hlen : (name :: operands).length ≤ tokenLimit) :
    (Plan.ofTokens (name :: operands)).output room = (cause, out) := by
  cases h with
  | unknownDirective hhead hname =>
    rw [ofTokens_cons hlen, if_pos hhead, Plan.ofDirective, hname]
    rfl
  | noBytes hname =>
    rw [ofTokens_cons hlen, if_pos (head?_of_byte hname), Plan.ofDirective, if_pos hname]
    rfl
  | bytes hname hne hall hroom =>
    rw [ofTokens_byte hlen hname hne, ← List.append_nil (operands.map rawByte),
      output_rawBytes_append hall hroom, Plan.output, List.append_nil]
  | byteNumber hname hpre hroom htoken =>
    rw [ofTokens_byte hlen hname (by simp), List.map_append, List.map_cons,
      output_rawBytes_append hpre hroom, rawByte_of_not_standsFor htoken, output_error,
      List.append_nil]
  | byteRoom hname hpre hroom htoken =>
    have hfull : ∀ byte, (Instruction.raw byte).output (room - out.length) = .error .full :=
      fun byte => if_neg (by simp [hroom])
    rw [ofTokens_byte hlen hname (by simp), List.map_append, List.map_cons,
      output_rawBytes_append hpre hroom.le, rawByte_of_standsFor htoken,
      Plan.output_ok_of_error (hfull _), List.append_nil]
  | pushMissing hname =>
    rw [ofTokens_push hlen hname]
    rfl
  | pushExtra hname hextra =>
    rw [ofTokens_push hlen hname, operand_of_one_lt_length hextra]
    rfl
  | pushNumber hname hn =>
    rw [ofTokens_push hlen hname, operand_eq_badNumber_iff.2 hn]
    rfl
  | @pushWidth width token value hname hn hv =>
    have hnarrow : (Instruction.sizedPush width value).output room =
        .error (.width (.tooNarrow width)) :=
      Instruction.output_eq_width_iff.2 (Instruction.encode_eq_tooNarrow_iff.2
        ⟨value, rfl, width_bounds_of_pushName hname, hv⟩)
    rw [ofTokens_push hlen hname, operand_eq_ok_iff.2 hn]
    exact Plan.output_ok_of_error hnarrow []
  | pushRoom hname hn hcode hroom =>
    rw [ofTokens_push hlen hname, operand_eq_ok_iff.2 hn]
    exact Plan.output_ok_of_error (Instruction.output_eq_full_iff.2 ⟨_, hcode, hroom⟩) []
  | push hname hn hcode hroom =>
    rw [ofTokens_push hlen hname, operand_eq_ok_iff.2 hn]
    exact output_singleton (Instruction.output_eq_ok_iff.2 ⟨hcode, hroom⟩)
  | unknownInstruction hhead hpush hop =>
    rw [ofTokens_instruction hlen hhead, instruction_of_unknown hpush hop]
    rfl
  | opExtra hname hne =>
    rw [ofTokens_op hlen hname, List.isEmpty_eq_false_iff.2 hne]
    rfl
  | opRoom hname hroom =>
    rw [ofTokens_op hlen hname, hroom]
    rfl
  | op hname hroom =>
    rw [ofTokens_op hlen hname]
    exact output_singleton (Instruction.output_eq_ok_iff.2 ⟨rfl, hroom⟩)

/-- For the number behind the name of a push there is a rule. -/
theorem exists_reply_of_number? {width : Option ℕ} (hname : PushName name width) {token : List Char}
    {value : Word} (hn : number? token = some value) (room : ℕ) :
    ∃ cause out, Reply room name [token] cause out := by
  cases hcode : (pushOf width value).encode with
  | ok code =>
    by_cases hroom : code.length ≤ room
    · exact ⟨_, _, .push hname hn hcode hroom⟩
    · exact ⟨_, _, .pushRoom hname hn hcode (not_le.1 hroom)⟩
  | error e =>
    obtain ⟨w, v, hpush, he⟩ := Instruction.encode_eq_error_iff.1 hcode
    rcases width with _ | width
    · cases hpush
    · cases hpush
      rcases Instruction.encodePush_eq_error_iff.1 he with ⟨hw, -⟩ | ⟨-, hv, -⟩
      · exact absurd (width_bounds_of_pushName hname) hw
      · exact ⟨_, _, .pushWidth hname hn hv⟩

/-- For every line there is a rule. -/
theorem exists_reply (room : ℕ) (name : List Char) (operands : List (List Char)) :
    ∃ cause out, Reply room name operands cause out := by
  by_cases hhead : name.head? = some '.'
  · cases hname : sameLetters name ".byte".toList with
    | false => exact ⟨_, _, .unknownDirective hhead hname⟩
    | true =>
      by_cases hne : operands = []
      · subst hne
        exact ⟨_, _, .noBytes hname⟩
      · rcases standsFor_cases operands room with ⟨out, hall, hroom⟩ |
          ⟨pre, token, post, out, rfl, hpre, ⟨hroom, htoken⟩ | ⟨hroom, byte, htoken⟩⟩
        · exact ⟨_, _, .bytes hname hne hall hroom⟩
        · exact ⟨_, _, .byteNumber hname hpre hroom htoken⟩
        · exact ⟨_, _, .byteRoom hname hpre hroom htoken⟩
  by_cases hpush : ∃ width, PushName name width
  · obtain ⟨width, hname⟩ := hpush
    rcases operands with _ | ⟨token, _ | ⟨token', operands⟩⟩
    · exact ⟨_, _, .pushMissing hname⟩
    · cases hn : number? token with
      | none => exact ⟨_, _, .pushNumber hname hn⟩
      | some value => exact exists_reply_of_number? hname hn room
    · exact ⟨_, _, .pushExtra hname (by simp)⟩
  by_cases hop : ∃ o : Opcode, sameLetters o.mnemonic.toList name = true
  · obtain ⟨o, hname⟩ := hop
    rcases operands with _ | ⟨token, operands⟩
    · rcases room with _ | room
      · exact ⟨_, _, .opRoom hname rfl⟩
      · exact ⟨_, _, .op hname (Nat.succ_pos room)⟩
    · exact ⟨_, _, .opExtra hname (List.cons_ne_nil _ _)⟩
  · exact ⟨_, _, .unknownInstruction hhead (not_exists.1 hpush) fun o =>
      Bool.eq_false_iff.2 (not_exists.1 hop o)⟩

/-! ### Lines -/

variable {ts : List (List Char)} {line : List Char}

theorem output_of_answer (h : Answer room ts cause out) :
    (Plan.ofTokens ts).output room = (cause, out) := by
  rcases h with _ | hlimit | ⟨hlen, hreply⟩
  · rfl
  · rcases ts with _ | ⟨name, operands⟩
    · cases hlimit
    · rw [List.length_cons] at hlimit
      rw [Plan.ofTokens, if_pos hlimit]
      rfl
  · exact output_of_reply hreply hlen

theorem exists_answer (room : ℕ) (ts : List (List Char)) :
    ∃ cause out, Answer room ts cause out := by
  rcases ts with _ | ⟨name, operands⟩
  · exact ⟨_, _, .blank⟩
  · by_cases hlen : (name :: operands).length ≤ tokenLimit
    · obtain ⟨cause, out, h⟩ := exists_reply room name operands
      exact ⟨cause, out, .reply hlen h⟩
    · exact ⟨_, _, .tooManyTokens (not_le.1 hlen)⟩

/-- The answer that the rules give a line is what its plan writes, so that there is one only. -/
theorem lineAnswer_iff :
    LineAnswer room line cause out ↔ (Plan.ofLine line).output room = (cause, out) := by
  constructor
  · rintro ⟨ts, hts, h⟩
    rw [Plan.ofLine, spaced_iff.1 hts, output_of_answer h]
  · intro h
    obtain ⟨cause', out', h'⟩ := exists_answer room (tokens (beforeComment line))
    have heq : (cause', out') = (cause, out) := (output_of_answer h').symm.trans h
    cases heq
    exact ⟨_, spaced_tokens _, h'⟩

end Listing

namespace Assembly

open Listing

/-- Taking a line comes to the output of its plan. -/
theorem output_eq_iff_feed (a : Assembly) (line : List Char) (cause : Option LineError)
    (out : List UInt8) :
    (Plan.ofLine line).output a.buffer.spare.length = (cause, out) ↔
      a.feed line = (cause.map fun cause => ⟨a.lines + 1, cause⟩,
        ⟨a.buffer.extend out, a.lines + 1⟩) := by
  rw [feed_eq]
  constructor
  · intro h
    rw [h]
  · intro h
    obtain ⟨herror, hstate⟩ := Prod.mk.inj h
    have hinj : Function.Injective fun cause => (⟨a.lines + 1, cause⟩ : ListingError) :=
      fun _ _ hc => (ListingError.mk.inj hc).2
    have hwritten := congrArg (fun t : Assembly => t.buffer.written) hstate
    exact Prod.ext (Option.map_injective hinj herror) (List.append_cancel_left hwritten)

/-- **Lines.**  Taking `line` comes to the one answer that the rules give it in the room there is;
the numbers up to `limit` decide only whether it is taken. -/
theorem lineAnswer_iff_feed (a : Assembly) (line : List Char) :
    (∃ cause out, LineAnswer a.buffer.spare.length line cause out ∧
      out.length ≤ a.buffer.spare.length) ∧
    (∀ cause out, LineAnswer a.buffer.spare.length line cause out ↔
      a.feed line = (cause.map fun cause => ⟨a.lines + 1, cause⟩,
        ⟨⟨a.buffer.written ++ out, a.buffer.spare.drop out.length⟩, a.lines + 1⟩)) ∧
    ∀ limit, a.feedIn limit line =
      if a.lines < limit then ((a.feed line).1.map .listing, (a.feed line).2)
      else (some .exhausted, a) := by
  exact ⟨⟨_, _, lineAnswer_iff.2 rfl, Plan.length_output_le _ _⟩,
    fun cause out => lineAnswer_iff.trans (output_eq_iff_feed a line cause out),
    fun limit => feedIn_eq limit a line⟩

end Assembly

end Stack256
