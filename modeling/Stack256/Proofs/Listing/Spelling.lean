import Mathlib
import Stack256.Proofs.Listing.LetterCase
import Stack256.Proofs.Listing.Register

/-!
# Stack256.Proofs.Listing.Spelling — what the spelling of a listing does not change

A line asks for what its tokens ask for, and these in either letter case
(`feed_eq_of_sameLine`).  Sources whose lines have the same tokens are therefore assembled alike
(`alike_of_sameLines`).  The one thing that may differ is how many lines there are: text behind the
last line break is a line if there is any, and needs a number.  A comment at the end of a line, and
white space that joins no tokens and splits none, change no tokens (`lineTokens_comment`,
`lineTokens_gap`).  Main statement: `spelling_irrelevant`.
-/

namespace Stack256

namespace Listing

open Text

/-! ### Lines -/

/-- The lines consist of the same tokens up to letter case, comments left out. -/
def SameLine (l m : List Char) : Prop :=
  ∃ ts us, Spaced (beforeComment l) ts ∧ Spaced (beforeComment m) us ∧ SameTexts ts us

theorem sameLine_iff {l m : List Char} :
    SameLine l m ↔ SameTexts (tokens (beforeComment l)) (tokens (beforeComment m)) := by
  simp only [SameLine, spaced_iff, exists_eq_left', exists_and_left]

theorem sameLine_of_tokens_eq {l m : List Char}
    (h : tokens (beforeComment l) = tokens (beforeComment m)) : SameLine l m := by
  rw [sameLine_iff, sameTexts_iff, h]

theorem sameLine_of_sameLetters {l m : List Char} (h : sameLetters l m = true) : SameLine l m := by
  rw [sameLine_iff, sameTexts_iff, ← tokens_map_toLower, ← tokens_map_toLower,
    ← beforeComment_map_toLower, ← beforeComment_map_toLower, (sameLetters_iff l m).1 h]

theorem sameLine_dropReturn {l m : List Char} (h : SameLine l m) :
    SameLine (dropReturn l) (dropReturn m) := by
  rwa [sameLine_iff, lineTokens_dropReturn, lineTokens_dropReturn, ← sameLine_iff]

/-! ### Comments and white space -/

theorem beforeComment_append_of_mem {p : List Char} (h : ';' ∈ p) (t : List Char) :
    beforeComment (p ++ t) = beforeComment p := by
  rw [beforeComment, List.takeWhile_append, if_neg]
  · rfl
  · intro hlen
    have hall := (List.takeWhile_prefix (· != ';')).eq_of_length hlen
    simpa using List.takeWhile_eq_self_iff.1 hall _ h

theorem beforeComment_append {p : List Char} (h : ';' ∉ p) (t : List Char) :
    beforeComment (p ++ t) = p ++ beforeComment t :=
  List.takeWhile_append_of_pos fun c hc => by
    rw [bne_iff_ne]
    rintro rfl
    exact h hc

/-- White space without line breaks. -/
def IsGap (w : List Char) : Prop :=
  ∀ c ∈ w, isBlank c = true ∧ c ≠ '\n'

instance (w : List Char) : Decidable (IsGap w) :=
  List.decidableBAll (fun c => isBlank c = true ∧ c ≠ '\n') w

/-- The two texts hold no parts of one token: white space ends the first or starts the second, or
the second is a comment. -/
def Apart (u v : List Char) : Prop :=
  (∀ c ∈ u.getLast?, isBlank c = true) ∨ ∀ c ∈ v.head?, isBlank c = true ∨ c = ';'

/-- What is apart is also apart within its line. -/
theorem Apart.within {u v p q : List Char} (h : Apart u v) (hp : p <:+ u) (hq : q <+: v) :
    Apart p q := by
  obtain ⟨r, rfl⟩ := hp
  obtain ⟨r', rfl⟩ := hq
  refine h.imp (fun hlast c hc => hlast c ?_) fun hhead c hc => hhead c ?_
  · rw [List.getLast?_append, Option.mem_def.1 hc]
    rfl
  · rw [List.head?_append, Option.mem_def.1 hc]
    rfl

theorem semicolon_not_mem_of_blank {w : List Char} (h : ∀ c ∈ w, isBlank c = true) : ';' ∉ w :=
  fun hmem => absurd (h _ hmem) (by decide)

theorem tokens_gap {s g t : List Char} (hg : ∀ c ∈ g, isBlank c = true)
    (h : g ≠ [] ∨ (∀ c ∈ s.getLast?, isBlank c = true) ∨ ∀ c ∈ t.head?, isBlank c = true) :
    tokens (s ++ g ++ t) = tokens s ++ tokens t := by
  rcases g with _ | ⟨c, g⟩
  · rw [List.append_nil]
    rcases h.resolve_left (· rfl) with hs | ht
    · rcases List.eq_nil_or_concat' s with rfl | ⟨s, c, rfl⟩
      · rfl
      · have hc : isBlank c = true := hs c (by simp)
        rw [List.append_assoc, List.singleton_append, tokens_append_cons hc,
          tokens_append_blank hc]
    · rcases t with _ | ⟨c, t⟩
      · rw [List.append_nil]
        exact (List.append_nil _).symm
      · have hc : isBlank c = true := ht c rfl
        rw [tokens_append_cons hc, tokens_cons_blank hc]
  · obtain ⟨hc, hg⟩ := List.forall_mem_cons.1 hg
    rw [List.append_assoc, List.cons_append, tokens_append_cons hc,
      tokens_blanks_append hg]

/-- White space parts a line in two unless the comment does. -/
theorem lineTokens_append {p g q : List Char} (hp : ';' ∉ p) (hg : ∀ c ∈ g, isBlank c = true)
    (h : Apart p q ∨ g ≠ []) :
    tokens (beforeComment (p ++ g ++ q)) = tokens p ++ tokens (beforeComment q) := by
  have hcut : ';' ∉ p ++ g := by
    rw [List.mem_append, not_or]
    exact ⟨hp, semicolon_not_mem_of_blank hg⟩
  rw [beforeComment_append hcut, tokens_gap hg]
  rcases h with (hlast | hhead) | hne
  · exact .inr (.inl hlast)
  · refine .inr (.inr fun c hc => ?_)
    rcases q with _ | ⟨d, q⟩
    · cases hc
    · by_cases hd : d = ';'
      · simp [beforeComment, hd] at hc
      · obtain rfl : d = c := by simpa [beforeComment, hd] using hc
        exact (hhead d rfl).resolve_right hd
  · exact .inl hne

theorem lineTokens_gap {p q w w' : List Char} (hw : IsGap w) (hw' : IsGap w')
    (h : Apart p q ∨ w ≠ [] ∧ w' ≠ []) :
    tokens (beforeComment (p ++ w ++ q)) = tokens (beforeComment (p ++ w' ++ q)) := by
  by_cases hp : ';' ∈ p
  · rw [List.append_assoc, List.append_assoc, beforeComment_append_of_mem hp,
      beforeComment_append_of_mem hp]
  · rw [lineTokens_append hp (fun c hc => (hw c hc).1) (h.imp_right And.left),
      lineTokens_append hp (fun c hc => (hw' c hc).1) (h.imp_right And.right)]

/-- A comment may stand before the white space at the end of a line. -/
theorem lineTokens_comment {p q : List Char} (hq : ∀ c ∈ q, isBlank c = true)
    (comment : List Char) :
    tokens (beforeComment (p ++ ';' :: comment ++ q)) = tokens (beforeComment (p ++ q)) := by
  by_cases hp : ';' ∈ p
  · rw [List.append_assoc, beforeComment_append_of_mem hp, beforeComment_append_of_mem hp]
  · have hcomment := lineTokens_append (g := []) (q := ';' :: comment ++ q) hp
      (List.forall_mem_nil _) (.inl (.inr fun c hc => .inr (Option.some_inj.1 hc).symm))
    have hblank := lineTokens_append (q := []) hp hq (.inl (.inr fun c hc => by cases hc))
    rw [List.append_nil, ← List.append_assoc] at hcomment
    rw [List.append_nil] at hblank
    rw [hcomment, hblank]
    rfl

end Listing

namespace Assembly

open Listing

/-! ### Sources -/

theorem feed_eq_of_sameLine {l m : List Char} (h : SameLine l m) (a : Assembly) :
    a.feed l = a.feed m := by
  rw [feed_eq, feed_eq, Plan.ofLine, Plan.ofLine, ofTokens_congr (sameLine_iff.1 h)]

theorem feedAll_eq_of_sameLine {ls ms : List (List Char)} (h : List.Forall₂ SameLine ls ms)
    (a : Assembly) : a.feedAll ls = a.feedAll ms := by
  induction h generalizing a with
  | nil => rfl
  | @cons l m ls ms hline _ ih =>
    rw [feedAll, feedAll, feed_eq_of_sameLine hline]
    rcases a.feed m with ⟨_ | e, t⟩
    · exact ih t
    · rfl

theorem feedIn_eq_of_sameLine {l m : List Char} (h : SameLine l m) (a : Assembly) (limit : ℕ) :
    a.feedIn limit l = a.feedIn limit m := by
  rcases lt_or_ge a.lines limit with hlt | hle
  · rw [feedIn_of_lt hlt, feedIn_of_lt hlt, feed_eq_of_sameLine h]
  · rw [feedIn_of_le hle, feedIn_of_le hle]

theorem feedAllIn_eq_of_sameLine {ls ms : List (List Char)} (h : List.Forall₂ SameLine ls ms)
    (a : Assembly) (limit : ℕ) : a.feedAllIn limit ls = a.feedAllIn limit ms := by
  rw [feedAllIn_eq, feedAllIn_eq, feedAll_eq_of_sameLine (List.forall₂_take _ h), h.length_eq]

/-- The two sources have as many line breaks, and between them the same tokens. -/
def SameLines (s t : List Char) : Prop :=
  List.Forall₂ SameLine (linesOf s) (linesOf t)

/-- The two sources are assembled with the same error or none and the same buffer: without a limit
on the line numbers, and with a limit that is not below the given one. -/
def Alike (least : ℕ) (s t : List Char) : Prop :=
  ∀ memory : List UInt8,
    ((ofSource s memory).1 = (ofSource t memory).1 ∧
      (ofSource s memory).2.buffer = (ofSource t memory).2.buffer) ∧
    ∀ limit, least ≤ limit →
      (ofSourceIn limit s memory).1 = (ofSourceIn limit t memory).1 ∧
      (ofSourceIn limit s memory).2.buffer = (ofSourceIn limit t memory).2.buffer

variable {s t : List Char}

theorem count_eq_of_sameLines (h : SameLines s t) : s.count '\n' = t.count '\n' := by
  have hlen := h.length_eq
  rw [length_linesOf, length_linesOf] at hlen
  exact Nat.succ_injective hlen

theorem alike_of_sameLines (h : SameLines s t) : Alike (s.count '\n' + 1) s t := by
  intro memory
  have hsource : ofSource s memory = ofSource t memory := feedAll_eq_of_sameLine h _
  refine ⟨by rw [hsource]; exact ⟨rfl, rfl⟩, fun limit hlimit => ?_⟩
  obtain ⟨herror, hbuffer⟩ := ofSourceIn_of_lt hlimit memory
  obtain ⟨herror', hbuffer'⟩ := ofSourceIn_of_lt (count_eq_of_sameLines h ▸ hlimit) memory
  rw [herror, hbuffer, herror', hbuffer', hsource]
  exact ⟨rfl, rfl⟩

theorem alike_of_sameLines_of_ended (h : SameLines s t) (hend : Text.Ended s ↔ Text.Ended t) :
    Alike 0 s t := by
  have hlines : List.Forall₂ SameLine (Text.lines s) (Text.lines t) :=
    Text.forall₂_lines h (fun _ _ => sameLine_dropReturn) hend
  intro memory
  refine ⟨(alike_of_sameLines h memory).1, fun limit _ => ?_⟩
  rw [ofSourceIn, ofSourceIn, feedAllIn_eq_of_sameLine hlines]
  exact ⟨rfl, rfl⟩

theorem sameLines_of_sameLetters (h : Text.sameLetters s t = true) : SameLines s t := by
  have hlines : Text.SameTexts (linesOf s) (linesOf t) := by
    rw [Text.sameTexts_iff, linesOf, linesOf, ← Text.pieces_map (Text.toLower_beq rfl),
      ← Text.pieces_map (Text.toLower_beq rfl), (Text.sameLetters_iff s t).1 h]
  exact hlines.imp fun _ _ => sameLine_of_sameLetters

theorem alike_of_sameLetters (h : Text.sameLetters s t = true) : Alike 0 s t := by
  refine alike_of_sameLines_of_ended (sameLines_of_sameLetters h) ?_
  rw [← Text.ended_map_toLower, (Text.sameLetters_iff s t).1 h, Text.ended_map_toLower]

/-! ### Changes of a source -/

variable {u v : List Char}

/-- What is put between two texts is put into one line. -/
theorem alike_insert {x y : List Char} (hx : '\n' ∉ x) (hy : '\n' ∉ y)
    (h : ∀ p, p <:+ u →
      tokens (beforeComment (p ++ x ++ v.takeWhile (· != '\n'))) =
        tokens (beforeComment (p ++ y ++ v.takeWhile (· != '\n')))) :
    Alike ((u ++ v).count '\n' + 1) (u ++ x ++ v) (u ++ y ++ v) ∧
      ((x = [] ↔ y = []) ∨ (Text.Ended u → v ≠ []) → Alike 0 (u ++ x ++ v) (u ++ y ++ v)) := by
  have hline : ∀ z : List Char, '\n' ∉ z → ∀ a ∈ z, (a == '\n') = false := fun z hz a ha => by
    rw [beq_eq_false_iff_ne]
    rintro rfl
    exact hz ha
  have hlines : SameLines (u ++ x ++ v) (u ++ y ++ v) := by
    obtain ⟨above, below, p, hp, hinsert⟩ := Text.exists_pieces_insert (· == '\n') u v
    have hrefl : ∀ ls : List (List Char), List.Forall₂ SameLine ls ls := fun ls =>
      List.forall₂_same.2 fun l _ => sameLine_of_tokens_eq rfl
    rw [SameLines, linesOf, linesOf, hinsert x (hline x hx), hinsert y (hline y hy)]
    exact List.rel_append (hrefl above) (.cons (sameLine_of_tokens_eq (h p hp)) (hrefl below))
  have hcount : (u ++ v).count '\n' = (u ++ x ++ v).count '\n' := by
    simp [List.count_append, List.count_eq_zero.2 hx]
  exact ⟨hcount ▸ alike_of_sameLines hlines,
    fun hend => alike_of_sameLines_of_ended hlines (Text.ended_insert_iff hx hy hend)⟩

theorem alike_gap {w w' : List Char} (hw : IsGap w) (hw' : IsGap w')
    (h : Apart u v ∨ w ≠ [] ∧ w' ≠ []) :
    Alike ((u ++ v).count '\n' + 1) (u ++ w ++ v) (u ++ w' ++ v) ∧
      ((w = [] ↔ w' = []) ∨ (Text.Ended u → v ≠ []) → Alike 0 (u ++ w ++ v) (u ++ w' ++ v)) :=
  alike_insert (fun hmem => (hw _ hmem).2 rfl) (fun hmem => (hw' _ hmem).2 rfl) fun _ hp =>
    lineTokens_gap hw hw' (h.imp_left fun happ => happ.within hp (List.takeWhile_prefix _))

theorem alike_comment {comment : List Char} (hc : '\n' ∉ comment)
    (hv : ∀ c ∈ v.takeWhile (· != '\n'), Text.isBlank c = true) :
    Alike ((u ++ v).count '\n' + 1) (u ++ ';' :: comment ++ v) (u ++ v) ∧
      ((Text.Ended u → v ≠ []) → Alike 0 (u ++ ';' :: comment ++ v) (u ++ v)) := by
  have hx : '\n' ∉ ';' :: comment := by
    rw [List.mem_cons, not_or]
    exact ⟨by decide, hc⟩
  obtain ⟨hleast, hall⟩ := alike_insert (u := u) (v := v) (y := []) hx List.not_mem_nil
    fun p _ => by rw [lineTokens_comment hv, List.append_nil]
  rw [List.append_nil] at hleast hall
  exact ⟨hleast, fun h => hall (.inr h)⟩

end Assembly

end Stack256
