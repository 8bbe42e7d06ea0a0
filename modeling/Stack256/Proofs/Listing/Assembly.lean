import Mathlib
import Stack256.Proofs.Listing.Grammar
import Stack256.Proofs.Listing.Register

/-!
# Stack256.Proofs.Listing.Assembly — assembling a printed listing is writing its instructions

No statement prints a line end, so that the lines of a printed listing are the texts of its
statements (`lines_print`).  Line by line the assembly then has the buffer that writing the
instructions has, as long as there are numbers for the lines (`feedAllIn_texts`).  A line writes at
most 39 bytes (`length_output_ofLine_lt`), and 39 bytes can share a line, which says what codes have
a listing.  Main statement: `ofSourceIn_print`.
-/

namespace Stack256

open Listing

/-! ### One line -/

namespace Listing

theorem Plan.write_map_ok (is : List Instruction) (b : CodeBuffer) :
    Plan.write (is.map .ok) b = ((b.emitAll is).1.map .emit, (b.emitAll is).2) := by
  induction is generalizing b with
  | nil => rfl
  | cons i is ih =>
    rw [List.map_cons, Plan.write, CodeBuffer.emitAll]
    cases b.emit i with
    | error e => rfl
    | ok t => exact ih t

namespace Statement

theorem text_ne_nil (s : Statement) : s.text ≠ [] := by
  rw [text_eq]
  exact List.append_ne_nil_of_left_ne_nil (isToken_name s).1 _

theorem not_mem_text {s : Statement} {c : Char} (hc : Text.isBlank c = true) (hne : c ≠ ' ') :
    c ∉ s.text := by
  rw [text_eq, List.mem_append, not_or]
  refine ⟨fun hmem => ?_, fun hmem => ?_⟩
  · exact Bool.false_ne_true (((isToken_name s).2 c hmem).1.symm.trans hc)
  · obtain ⟨u, hu, hmem⟩ := List.mem_flatMap.1 hmem
    have hcu := (List.mem_cons.1 hmem).resolve_left hne
    exact Bool.false_ne_true (((isToken_of_mem_operands u hu).2 c hcu).1.symm.trans hc)

/-- The line of one instruction, whose number is written in the given base. -/
def ofInstruction (base : Base) : Instruction → Statement
  | .op o => .op o
  | .push value => .push base value
  | .sizedPush width value => .sizedPush width base value
  | .raw byte => .bytes [(base, byte)]

theorem instructions_ofInstruction (base : Base) (i : Instruction) :
    (ofInstruction base i).instructions = [i] := by
  cases i <;> rfl

theorem printable_ofInstruction {base : Base} {i : Instruction}
    (h : ∀ width value, i = .sizedPush width value → 1 ≤ width ∧ width ≤ 32) :
    (ofInstruction base i).Printable := by
  cases i with
  | op o => trivial
  | push value => trivial
  | sizedPush width value => exact h width value rfl
  | raw byte => exact ⟨le_refl 1, one_lt_tokenLimit⟩

end Statement

theorem lines_print (ss : List Statement) : Text.lines (print ss) = ss.map Statement.text := by
  refine Text.lines_intercalate fun p hp => ?_
  obtain ⟨s, -, rfl⟩ := List.mem_map.1 hp
  exact ⟨s.text_ne_nil, Statement.not_mem_text (by rfl) (by decide),
    Statement.not_mem_text (by rfl) (by decide)⟩

/-- The operands of a line are fewer than the tokens it may have, and no instruction is as long. -/
theorem length_output_ofLine_lt (line : List Char) (room : ℕ) :
    ((Plan.ofLine line).output room).2.length < tokenLimit := by
  obtain ⟨cause, out, h⟩ := exists_answer room (tokens (beforeComment line))
  rw [Plan.ofLine, output_of_answer h]
  generalize tokens (beforeComment line) = ts at h
  rcases h with _ | _ | ⟨hlen, hreply⟩
  · decide
  · decide
  · rw [List.length_cons] at hlen
    cases hreply with
    | bytes _ _ hall _ => exact hall.length_eq ▸ hlen
    | byteNumber _ hpre _ _ | byteRoom _ hpre _ _ =>
      have := hpre.length_eq
      rw [List.length_append] at hlen
      dsimp only
      omega
    | push _ _ hcode _ => exact (Instruction.length_encode_le hcode).trans_lt (by decide)
    | op _ _ => exact Statement.one_lt_tokenLimit
    | _ => exact Nat.zero_lt_of_lt Statement.one_lt_tokenLimit

end Listing

namespace Assembly

variable {a : Assembly} {ss : List Statement} {t : CodeBuffer} {e : EmitError} {limit : ℕ}

theorem feedIn_text {s : Statement} (h : s.Printable) (hlt : a.lines < limit) :
    a.feedIn limit s.text =
      ((a.buffer.emitAll s.instructions).1.map fun e => .listing ⟨a.lines + 1, .emit e⟩,
        ⟨(a.buffer.emitAll s.instructions).2, a.lines + 1⟩) := by
  rw [feedIn_of_lt hlt, feed, Statement.ofLine_text h, Plan.write_map_ok]
  simp only [Option.map_map]
  rfl

/-! ### All lines -/

theorem feedAllIn_texts (h : ∀ s ∈ ss, s.Printable) (hle : a.lines + ss.length ≤ limit)
    (he : a.buffer.emitAll (ss.flatMap Statement.instructions) = (none, t)) :
    a.feedAllIn limit (ss.map Statement.text) = (none, ⟨t, a.lines + ss.length⟩) := by
  induction ss generalizing a with
  | nil =>
    obtain ⟨-, rfl⟩ := Prod.mk.inj he
    rfl
  | cons s ss ih =>
    obtain ⟨hs, hss⟩ := List.forall_mem_cons.1 h
    rw [List.length_cons] at hle
    rw [List.flatMap_cons, CodeBuffer.emitAll_append] at he
    rcases hu : a.buffer.emitAll s.instructions with ⟨_ | e, u⟩
    · rw [hu] at he
      have hlines : a.lines + 1 + ss.length = a.lines + (s :: ss).length := by
        rw [List.length_cons]
        omega
      rw [List.map_cons, feedAllIn, feedIn_text hs (by omega), hu]
      exact (ih (a := ⟨u, a.lines + 1⟩) hss (by dsimp only; omega) he).trans (by rw [hlines])
    · rw [hu] at he
      cases he

theorem length_feedAllIn_le (h : a.lines ≤ limit) (ls : List (List Char)) :
    (a.feedAllIn limit ls).2.buffer.length ≤ a.buffer.length + 39 * (limit - a.lines) := by
  induction ls generalizing a with
  | nil => exact Nat.le_add_right _ _
  | cons l ls ih =>
    rcases h.lt_or_eq with hlt | heq
    · have hline : (a.feed l).2.buffer.length ≤ a.buffer.length + 39 := by
        rw [feed_eq]
        exact List.length_append.trans_le
          (Nat.add_le_add_left (Nat.le_of_lt_succ (length_output_ofLine_lt _ _)) _)
      have hlines := lines_feed a l
      rw [feedAllIn, feedIn_of_lt hlt]
      rcases hl : a.feed l with ⟨_ | e, t⟩
      · rw [hl] at hline hlines
        have hrest := ih (a := t) (hlines.trans_le hlt)
        dsimp only at hline hlines
        exact hrest.trans (by omega)
      · rw [hl] at hline
        exact hline.trans (by omega)
    · rw [feedAllIn_cons_of_exhausted heq.ge]
      exact Nat.le_add_right _ _

/-! ### A whole listing -/

variable {memory : List UInt8}

theorem ofSourceIn_print_of_written (h : ∀ s ∈ ss, s.Printable) (hle : ss.length ≤ limit)
    (he : (CodeBuffer.ofMemory memory).emitAll (ss.flatMap Statement.instructions) = (none, t)) :
    ofSourceIn limit (print ss) memory = (none, ⟨t, ss.length⟩) := by
  have hstart : 0 + ss.length ≤ limit := by
    omega
  rw [ofSourceIn, lines_print, feedAllIn_texts h hstart he, Nat.zero_add]

/-- The first statement that is not written is reported in its line, if there is a number for it. -/
theorem ofSourceIn_print_of_fail {pre post : List Statement} {s : Statement} {u : CodeBuffer}
    (h : ∀ s' ∈ pre ++ s :: post, s'.Printable) (hlt : pre.length < limit)
    (hpre : (CodeBuffer.ofMemory memory).emitAll (pre.flatMap Statement.instructions) = (none, u))
    (hfail : u.emitAll s.instructions = (some e, t)) :
    ofSourceIn limit (print (pre ++ s :: post)) memory =
      (some (.listing ⟨pre.length + 1, .emit e⟩), ⟨t, pre.length + 1⟩) := by
  obtain ⟨hprintable, hrest⟩ := List.forall_mem_append.1 h
  have hs : s.Printable := hrest s List.mem_cons_self
  have hstart : 0 + pre.length ≤ limit := by
    omega
  have hline : (0 : ℕ) + pre.length < limit := by
    omega
  rw [ofSourceIn, lines_print, List.map_append, feedAllIn_append,
    feedAllIn_texts hprintable hstart hpre]
  dsimp only
  rw [List.map_cons, feedAllIn, feedIn_text hs hline, hfail, Nat.zero_add]
  rfl

/-- The first statement that there is no number for is not looked at. -/
theorem ofSourceIn_print_of_exhausted (h : ∀ s ∈ ss, s.Printable) (hlt : limit < ss.length)
    (he : (CodeBuffer.ofMemory memory).emitAll ((ss.take limit).flatMap Statement.instructions) =
      (none, t)) :
    ofSourceIn limit (print ss) memory = (some .exhausted, ⟨t, limit⟩) := by
  have hlength : (ss.take limit).length = limit := List.length_take_of_le hlt.le
  have hstart : 0 + (ss.take limit).length ≤ limit := by
    omega
  have htaken := feedAllIn_texts (a := { buffer := .ofMemory memory })
    (fun s hs => h s (List.mem_of_mem_take hs)) hstart he
  have hsplit : ss.map Statement.text = (ss.take limit).map Statement.text ++
      ss[limit].text :: (ss.drop (limit + 1)).map Statement.text := by
    rw [← List.map_cons, ← List.map_append, List.getElem_cons_drop, List.take_append_drop]
  rw [ofSourceIn, lines_print, hsplit, feedAllIn_append, htaken, hlength, Nat.zero_add]
  exact feedAllIn_cons_of_exhausted (le_refl limit) _ _

theorem flatMap_instructions_ofInstruction (l : List (Base × Instruction)) :
    (l.map fun p => Statement.ofInstruction p.1 p.2).flatMap Statement.instructions
      = l.map Prod.snd := by
  rw [List.flatMap_map, ← List.flatMap_pure_eq_map]
  exact List.flatMap_congr fun p _ => Statement.instructions_ofInstruction p.1 p.2

theorem printable_of_mem {l : List (Base × Instruction)}
    (h : ∀ p ∈ l, ∀ width value, p.2 = .sizedPush width value → 1 ≤ width ∧ width ≤ 32) :
    ∀ s ∈ l.map fun p => Statement.ofInstruction p.1 p.2, s.Printable := by
  intro s hs
  obtain ⟨p, hp, rfl⟩ := List.mem_map.1 hs
  exact Statement.printable_ofInstruction (h p hp)

theorem emitAll_raw {code memory : List UInt8} (h : code.length ≤ memory.length) :
    (CodeBuffer.ofMemory memory).emitAll (code.map .raw)
      = (none, ⟨code, memory.drop code.length⟩) := by
  have hbytes : (code.map Instruction.raw).flatMap (fun i => i.segment.bytes) = code := by
    rw [List.flatMap_map]
    exact List.flatMap_singleton' code
  rw [CodeBuffer.emitAll_eq_none_iff, hbytes, CodeBuffer.append?_eq_some_iff]
  refine ⟨fun i hi => ?_, h, rfl⟩
  obtain ⟨b, -, rfl⟩ := List.mem_map.1 hi
  trivial

/-- Bytes are cut into lines of 39. -/
theorem exists_statements_of_bytes {code : List UInt8} (h : code.length ≤ 39 * limit) :
    ∃ ss : List Statement, (∀ s ∈ ss, s.Printable) ∧ ss.length ≤ limit ∧
      ss.flatMap Statement.instructions = code.map .raw := by
  induction limit generalizing code with
  | zero =>
    obtain rfl := List.eq_nil_of_length_eq_zero (Nat.le_zero.1 h)
    exact ⟨[], List.forall_mem_nil _, le_refl 0, rfl⟩
  | succ n ih =>
    rcases eq_or_ne code [] with rfl | hne
    · exact ⟨[], List.forall_mem_nil _, Nat.zero_le _, rfl⟩
    · have hpos := List.length_pos_of_ne_nil hne
      have hrest : (code.drop 39).length ≤ 39 * n := by
        rw [List.length_drop]
        omega
      obtain ⟨ss, hss, hlength, hcode⟩ := ih hrest
      let s : Statement := .bytes ((code.take 39).map fun b => (.ten, b))
      have hs : s.Printable := by
        change 1 ≤ List.length _ ∧ List.length _ < tokenLimit
        rw [List.length_map, List.length_take]
        exact ⟨by omega, (Nat.min_le_left _ _).trans_lt (by decide)⟩
      have hbytes : s.instructions = (code.take 39).map .raw := List.map_map
      refine ⟨s :: ss, List.forall_mem_cons.2 ⟨hs, hss⟩, Nat.succ_le_succ hlength, ?_⟩
      rw [List.flatMap_cons, hbytes, hcode, ← List.map_append, List.take_append_drop]

/-- **A printed listing is assembled as its instructions are written**, as far as the numbers up to
`limit` go; a code has a listing if and only if it has at most `39 * limit` bytes. -/
theorem ofSourceIn_print (limit : ℕ) :
    (∀ (memory : List UInt8) (l : List (Base × Instruction)),
      (∀ p ∈ l, ∀ width value, p.2 = .sizedPush width value → 1 ≤ width ∧ width ≤ 32) →
      let source := print (l.map fun p => .ofInstruction p.1 p.2)
      (∀ t, (CodeBuffer.ofMemory memory).emitAll (l.map Prod.snd) = (none, t) →
        l.length ≤ limit → ofSourceIn limit source memory = (none, ⟨t, l.length⟩)) ∧
      (∀ e t, (CodeBuffer.ofMemory memory).emitAll (l.map Prod.snd) = (some e, t) →
        ∃ pre p post, l = pre ++ p :: post ∧
          (CodeBuffer.ofMemory memory).emitAll (pre.map Prod.snd) = (none, t) ∧
          t.emit p.2 = .error e ∧
          (pre.length < limit → ofSourceIn limit source memory =
            (some (.listing ⟨pre.length + 1, .emit e⟩), ⟨t, pre.length + 1⟩))) ∧
      ∀ t, (CodeBuffer.ofMemory memory).emitAll ((l.take limit).map Prod.snd) = (none, t) →
        limit < l.length → ofSourceIn limit source memory = (some .exhausted, ⟨t, limit⟩)) ∧
    (∀ (memory : List UInt8) (ss : List Statement),
      (∀ s ∈ ss, s.Printable) → ss.length ≤ limit →
      ∀ t, (CodeBuffer.ofMemory memory).emitAll (ss.flatMap Statement.instructions) = (none, t) →
        ofSourceIn limit (print ss) memory = (none, ⟨t, ss.length⟩)) ∧
    ∀ code : List UInt8, code.length ≤ 39 * limit ↔
      ∃ source, ∀ memory, code.length ≤ memory.length →
        ∃ lines, ofSourceIn limit source memory =
          (none, ⟨⟨code, memory.drop code.length⟩, lines⟩) := by
  refine ⟨fun memory l h => ⟨fun t he hle => ?_, fun e t he => ?_, fun t he hlt => ?_⟩,
    fun memory ss h hle t he => ofSourceIn_print_of_written h hle he,
    fun code => ⟨fun hlength => ?_, fun ⟨source, hsource⟩ => ?_⟩⟩
  · rw [← flatMap_instructions_ofInstruction] at he
    refine (ofSourceIn_print_of_written (printable_of_mem h) ?_ he).trans ?_
    · rwa [List.length_map]
    · rw [List.length_map]
  · obtain ⟨is, i, js, hl, hpre, hfail⟩ := CodeBuffer.exists_of_emitAll_eq_some he
    obtain ⟨pre, l', rfl, rfl, hl'⟩ := List.map_eq_append_iff.1 hl
    obtain ⟨p, post, rfl, rfl, rfl⟩ := List.map_eq_cons_iff.1 hl'
    refine ⟨pre, p, post, rfl, hpre, hfail, fun hlt => ?_⟩
    have hprintable := printable_of_mem h
    rw [List.map_append, List.map_cons] at hprintable ⊢
    rw [← flatMap_instructions_ofInstruction] at hpre
    have hline : t.emitAll (Statement.ofInstruction p.1 p.2).instructions = (some e, t) := by
      rw [Statement.instructions_ofInstruction, CodeBuffer.emitAll_singleton_eq_some_iff]
      exact ⟨hfail, rfl⟩
    have hreport := ofSourceIn_print_of_fail hprintable (by rwa [List.length_map]) hpre hline
    rwa [List.length_map] at hreport
  · rw [← flatMap_instructions_ofInstruction, List.map_take] at he
    exact ofSourceIn_print_of_exhausted (printable_of_mem h) (by rwa [List.length_map]) he
  · obtain ⟨ss, hprintable, hle, hcode⟩ := exists_statements_of_bytes hlength
    refine ⟨print ss, fun memory hm => ⟨ss.length, ofSourceIn_print_of_written hprintable hle ?_⟩⟩
    rw [hcode, emitAll_raw hm]
  · obtain ⟨lines, hcode⟩ := hsource code (le_refl _)
    have hlength := length_feedAllIn_le (a := { buffer := .ofMemory code }) (Nat.zero_le limit)
      (Text.lines source)
    rw [← ofSourceIn, hcode] at hlength
    exact hlength.trans (Nat.zero_add _).le

/-- The second listing stops at a number that is too wide, the third has a line more than numbers.
-/
theorem ofSourceIn_print_too_wide :
    ofSourceIn lineLimit "PUSH 7\nPUSH2 0xff\nADD".toList (List.replicate 8 9) =
      (none, ⟨⟨[0x60, 7, 0x61, 0, 0xff, 1], [9, 9]⟩, 3⟩) ∧
    ofSourceIn lineLimit "PUSH 7\nPUSH1 0x100".toList (List.replicate 8 9) =
      (some (.listing ⟨2, .emit (.width (.tooNarrow 1))⟩), ⟨⟨[0x60, 7], List.replicate 6 9⟩, 2⟩) ∧
    ofSourceIn 1 "PUSH 7\nADD".toList (List.replicate 3 9) =
      (some .exhausted, ⟨⟨[0x60, 7], [9]⟩, 1⟩) ∧
    ofSourceIn lineLimit ".byte 1 0x2".toList (List.replicate 3 9) = (none, ⟨⟨[1, 2], [9]⟩, 1⟩) ∧
    ∃ source lines, ofSourceIn lineLimit source [8, 8, 9] = (none, ⟨⟨[1, 2], [9]⟩, lines⟩) := by
  obtain ⟨hlist, hgroups, hcode⟩ := ofSourceIn_print lineLimit
  refine ⟨?_, ?_, ?_, ?_, ?_⟩
  · exact (hlist (List.replicate 8 9)
      [(.ten, .push 7), (.sixteen, .sizedPush 2 255), (.ten, .op .add)]
      (by simp)).1 _ rfl (by decide)
  · obtain ⟨pre, p, post, hl, hpre, -, hreport⟩ := (hlist (List.replicate 8 9)
      [(.ten, .push 7), (.sixteen, .sizedPush 1 256)] (by simp)).2.1 _ _ rfl
    -- the push of 7 is written, so that the instruction at fault is the one behind it
    rcases pre with _ | ⟨q, _ | ⟨q', pre⟩⟩
    · cases hpre
    · exact hreport (by decide : 1 < lineLimit)
    · have hlength := congrArg List.length hl
      simp at hlength
  · exact ((ofSourceIn_print 1).1 (List.replicate 3 9) [(.ten, .push 7), (.ten, .op .add)]
      (by simp)).2.2 _ rfl (by decide)
  · exact hgroups (List.replicate 3 9) [.bytes [(.ten, 1), (.sixteen, 2)]]
      (by simp [Statement.Printable, tokenLimit]) (by decide) _ rfl
  · obtain ⟨source, h⟩ := (hcode [1, 2]).1 (by decide)
    exact ⟨source, h [8, 8, 9] (by decide)⟩

/-- One byte more than there are line numbers is written, but its listing is not assembled. -/
theorem ofSourceIn_print_line_limit :
    let l : List (Base × Instruction) := List.replicate (lineLimit + 1) (.ten, .raw 0)
    let memory : List UInt8 := List.replicate (lineLimit + 1) 0
    (∀ p ∈ l, ∀ width value, p.2 = .sizedPush width value → 1 ≤ width ∧ width ≤ 32) ∧
    ((CodeBuffer.ofMemory memory).emitAll (l.map Prod.snd)).1 = none ∧
    (ofSourceIn lineLimit (print (l.map fun p => .ofInstruction p.1 p.2)) memory).1 =
      some .exhausted := by
  intro l memory
  have hpush : ∀ p ∈ l, ∀ width value, p.2 = .sizedPush width value → 1 ≤ width ∧ width ≤ 32 := by
    intro p hp width value h
    rw [List.eq_of_mem_replicate hp] at h
    cases h
  have hwritten (k : ℕ) (hk : k ≤ lineLimit + 1) : (CodeBuffer.ofMemory memory).emitAll
      ((List.replicate k ((.ten, .raw 0) : Base × Instruction)).map Prod.snd) =
        (none, ⟨List.replicate k 0, memory.drop k⟩) := by
    have hroom : (List.replicate k (0 : UInt8)).length ≤ memory.length := by
      rwa [List.length_replicate, List.length_replicate]
    have hraw := emitAll_raw hroom
    rw [List.map_replicate, List.length_replicate] at hraw
    rwa [List.map_replicate]
  have hlong : lineLimit < (l.map fun p => Statement.ofInstruction p.1 p.2).length := by
    rw [List.length_map, List.length_replicate]
    exact Nat.lt_succ_self _
  have hnumbered : (CodeBuffer.ofMemory memory).emitAll
      (((l.map fun p => Statement.ofInstruction p.1 p.2).take lineLimit).flatMap
        Statement.instructions) = (none, ⟨List.replicate lineLimit 0, memory.drop lineLimit⟩) := by
    rw [← List.map_take, flatMap_instructions_ofInstruction, List.take_replicate,
      Nat.min_eq_left (Nat.le_succ _)]
    exact hwritten lineLimit (Nat.le_succ _)
  exact ⟨hpush, congrArg Prod.fst (hwritten (lineLimit + 1) (le_refl _)),
    congrArg Prod.fst (ofSourceIn_print_of_exhausted (printable_of_mem hpush) hlong hnumbered)⟩

end Assembly

end Stack256
