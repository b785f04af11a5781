import Mathlib.Tactic.SplitIfs
import PatternSweep.Pattern.Graph

/-!
# Drawings in writing

A drawing can be read off its text. Quoting loses nothing (`Text.quotedText_injective`): a backslash
opens every form that is not the character itself, and the forms begin in different ways. So no two
lines of a drawing are written alike (`GraphLine.chars_injective`). Since no line has a line feed in
it, the lines of the text are those of the drawing, between three before and one after
(`Pattern.splitOn_toDot`), which are not written as any line of a drawing is. `Reads texts ls` says
that `ls` are all the lines of a drawing among some lines of text; a text has just one such reading
(`Pattern.reads_toDot_iff`).
-/

namespace PatternSweep

/-- What stands before the first occurrence of `a`, and what stands after it. -/
theorem append_cons_inj_of_not_mem {α : Type} [DecidableEq α] {xs ys s t : List α} {a : α}
    (hx : a ∉ xs) (hy : a ∉ ys) (h : xs ++ a :: s = ys ++ a :: t) : xs = ys ∧ s = t := by
  have hsplit := congrArg (List.splitOn a) h
  rw [List.splitOn_append_cons_self_of_not_mem hx, List.splitOn_append_cons_self_of_not_mem hy]
    at hsplit
  obtain rfl := (List.cons.inj hsplit).1
  exact ⟨rfl, (List.cons.inj (List.append_cancel_left h)).2⟩

/-! ### Numbers -/

section Digits

variable {b m n : Nat} (hb : 1 < b) (hb16 : b ≤ 16)

include hb hb16

theorem not_mem_toDigits {c : Char} (hc : ∀ d < 16, Nat.digitChar d ≠ c) :
    c ∉ Nat.toDigits b n := by
  induction n using Nat.strongRecOn with
  | _ n ih =>
    rw [Nat.toDigits_eq_if hb]
    split
    next hlt => simpa using (hc n (by omega)).symm
    next hge =>
      have hmod : n % b < b := Nat.mod_lt n (by omega)
      have hdiv : c ∉ Nat.toDigits b (n / b) := ih _ (Nat.div_lt_self (by omega) hb)
      simpa [hdiv] using (hc (n % b) (by omega)).symm

theorem toDigits_injective (h : Nat.toDigits b m = Nat.toDigits b n) : m = n := by
  have hdigit : ∀ d < 16, ∀ e < 16, Nat.digitChar d = Nat.digitChar e → d = e := by decide
  have hlonger : ∀ (k : Nat) (c d : Char), Nat.toDigits b k ++ [c] ≠ [d] := by
    simp [List.append_eq_singleton_iff]
  induction m using Nat.strongRecOn generalizing n with
  | _ m ih =>
    rw [Nat.toDigits_eq_if hb, Nat.toDigits_eq_if (n := n) hb] at h
    split_ifs at h with hm hn hn
    · exact hdigit m (by omega) n (by omega) (List.singleton_inj.1 h)
    · exact absurd h.symm (hlonger _ _ _)
    · exact absurd h (hlonger _ _ _)
    · obtain ⟨hdiv, hlast⟩ := List.append_inj' h rfl
      have hmod : m % b < b := Nat.mod_lt m (by omega)
      have hmod' : n % b < b := Nat.mod_lt n (by omega)
      have hdiv := ih _ (Nat.div_lt_self (by omega) hb) hdiv
      have hlast := hdigit _ (by omega) _ (by omega) (List.singleton_inj.1 hlast)
      rw [← Nat.div_add_mod m b, hdiv, hlast, Nat.div_add_mod]

end Digits

/-! ### Quoted text -/

namespace Text

/-- The character that a backslash and this one stand for between double quotes. -/
def named : Char → Char
  | '0' => '\x00'
  | 't' => '\t'
  | 'r' => '\r'
  | 'n' => '\n'
  | c => c

/-- A character has one of three forms: a backslash and another character, its code point after a
backslash and `u`, or itself if it is no backslash. -/
theorem escaped_cases (c : Char) :
    (∃ d, escaped '"' c = ['\\', d] ∧ d ≠ 'u' ∧ named d = c) ∨
    escaped '"' c = '\\' :: 'u' :: '{' :: (Nat.toDigits 16 c.toNat ++ ['}']) ∨
    escaped '"' c = [c] ∧ c ≠ '\\' := by
  unfold escaped
  split_ifs with hnull htab hreturn hline hslash hquote hhidden
  · exact Or.inl ⟨_, rfl, by decide, hnull.symm⟩
  · exact Or.inl ⟨_, rfl, by decide, htab.symm⟩
  · exact Or.inl ⟨_, rfl, by decide, hreturn.symm⟩
  · exact Or.inl ⟨_, rfl, by decide, hline.symm⟩
  · exact Or.inl ⟨_, rfl, by decide, hslash.symm⟩
  · exact Or.inl ⟨_, rfl, by decide, hquote.symm⟩
  · exact Or.inr (Or.inl rfl)
  · exact Or.inr (Or.inr ⟨rfl, hslash⟩)

/-- No form of a character is the beginning of a form of another one. -/
theorem escaped_append_inj {c d : Char} {s t : List Char}
    (h : escaped '"' c ++ s = escaped '"' d ++ t) : c = d ∧ s = t := by
  rcases escaped_cases c with ⟨x, hc, hx, rfl⟩ | hc | ⟨hc, hslash⟩ <;>
    rcases escaped_cases d with ⟨y, hd, hy, rfl⟩ | hd | ⟨hd, hslash'⟩ <;>
      rw [hc, hd] at h <;>
      simp only [List.cons_append, List.nil_append, List.append_assoc, List.cons.injEq] at h
  -- forms of two kinds differ in the backslash or in the character after it
  · exact ⟨congrArg named h.2.1, h.2.2⟩
  · exact absurd h.2.1 hx
  · exact absurd h.1.symm hslash'
  · exact absurd h.2.1.symm hy
  · obtain ⟨hdigits, hrest⟩ := append_cons_inj_of_not_mem
      (not_mem_toDigits (by decide) (by decide) (by decide))
      (not_mem_toDigits (by decide) (by decide) (by decide)) h.2.2.2
    exact ⟨Char.toNat_inj.1 (toDigits_injective (by decide) (by decide) hdigits), hrest⟩
  · exact absurd h.1.symm hslash'
  · exact absurd h.1 hslash
  · exact absurd h.1 hslash
  · exact h

theorem escaped_ne_nil (c : Char) : escaped '"' c ≠ [] := by
  rcases escaped_cases c with ⟨d, hc, -⟩ | hc | ⟨hc, -⟩ <;> simp [hc]

theorem flatMap_escaped_injective {cs ds : List Char}
    (h : cs.flatMap (escaped '"') = ds.flatMap (escaped '"')) : cs = ds := by
  induction cs generalizing ds with
  | nil =>
    cases ds with
    | nil => rfl
    | cons d ds => exact absurd (List.append_eq_nil_iff.1 h.symm).1 (escaped_ne_nil d)
  | cons c cs ih =>
    cases ds with
    | nil => exact absurd (List.append_eq_nil_iff.1 h).1 (escaped_ne_nil c)
    | cons d ds =>
      obtain ⟨rfl, hrest⟩ := escaped_append_inj h
      rw [ih hrest]

/-- **Quoting loses nothing.** -/
theorem quotedText_injective {s t : String} (h : quotedText s = quotedText t) : s = t := by
  have hchars := (List.cons.inj (String.ofList_injective h)).2
  exact String.toList_injective (flatMap_escaped_injective (List.append_cancel_right hchars))

theorem line_feed_not_mem_escaped (c : Char) : '\n' ∉ escaped '"' c := by
  have hdigits : '\n' ∉ Nat.toDigits 16 c.toNat :=
    not_mem_toDigits (by decide) (by decide) (by decide)
  unfold escaped
  split_ifs with _ _ _ hline
  any_goals decide
  · simpa using hdigits
  · simpa using Ne.symm hline

end Text

/-! ### Lines -/

namespace GraphLine

/-- The number with which a line begins. -/
def number : GraphLine → Nat
  | node id _ => id
  | edge source _ => source

/-- What is written after that number and a blank. -/
def rest : GraphLine → List Char
  | node _ label => ['[', 'l', 'a', 'b', 'e', 'l', '='] ++ ((Text.quotedText label).toList ++ [']'])
  | edge _ target => ['-', '>', ' ', 'n'] ++ Nat.toDigits 10 target

/-- A line as it is written, without the line feed after it. -/
def chars (l : GraphLine) : List Char :=
  ' ' :: ' ' :: 'n' :: (Nat.toDigits 10 l.number ++ ' ' :: l.rest)

theorem toList_text (l : GraphLine) : l.text.toList = l.chars ++ ['\n'] := by
  cases l <;> simp [text, chars, number, rest]

theorem line_feed_not_mem_chars (l : GraphLine) : '\n' ∉ l.chars := by
  have hdigits : ∀ n, '\n' ∉ Nat.toDigits 10 n := fun n =>
    not_mem_toDigits (by decide) (by decide) (by decide)
  cases l with
  | node id label =>
    simp [chars, rest, hdigits, Text.quotedText, Text.line_feed_not_mem_escaped]
  | edge source target => simp [chars, rest, hdigits]

/-- Whether two blanks, an `n` and a digit come first. -/
def beginsAsLine : List Char → Bool
  | ' ' :: ' ' :: 'n' :: c :: _ => c.isDigit
  | _ => false

theorem beginsAsLine_chars (l : GraphLine) : beginsAsLine l.chars = true := by
  obtain ⟨d, ds, h⟩ := List.exists_cons_of_ne_nil (Nat.toDigits_ne_nil (n := l.number) (b := 10))
  have hd : d ∈ Nat.toDigits 10 l.number := h ▸ List.mem_cons_self
  rw [chars, h]
  exact Nat.isDigit_of_mem_toDigits (by decide) (by decide) hd

/-- No two lines are written alike. -/
theorem chars_injective {l m : GraphLine} (h : l.chars = m.chars) : l = m := by
  have hblank : ∀ n, ' ' ∉ Nat.toDigits 10 n := fun n =>
    not_mem_toDigits (by decide) (by decide) (by decide)
  simp only [chars, List.cons.injEq, true_and] at h
  obtain ⟨hnumber, hrest⟩ := append_cons_inj_of_not_mem (hblank _) (hblank _) h
  have hnumber : l.number = m.number := toDigits_injective (by decide) (by decide) hnumber
  cases l with
  | node id label =>
    cases m with
    | node id' label' =>
      have hlabel := List.append_cancel_right (List.append_cancel_left hrest)
      obtain rfl := Text.quotedText_injective (String.toList_injective hlabel)
      obtain rfl : id = id' := hnumber
      rfl
    | edge source target => simp [rest] at hrest
  | edge source target =>
    cases m with
    | node id label => simp [rest] at hrest
    | edge source' target' =>
      obtain rfl := toDigits_injective (by decide) (by decide) (List.append_cancel_left hrest)
      obtain rfl : source = source' := hnumber
      rfl

end GraphLine

/-! ### Reading -/

/-- The lines of a drawing among some lines of text are `ls`, in this order; the other lines are not
written as any line of a drawing is. -/
inductive Reads : List (List Char) → List GraphLine → Prop
  | nil : Reads [] []
  | line {cs : List Char} {texts : List (List Char)} {l : GraphLine} {ls : List GraphLine}
    (hl : l.text.toList = cs ++ ['\n']) (h : Reads texts ls) : Reads (cs :: texts) (l :: ls)
  | other {cs : List Char} {texts : List (List Char)} {ls : List GraphLine}
    (hcs : ∀ l : GraphLine, l.text.toList ≠ cs ++ ['\n']) (h : Reads texts ls) :
    Reads (cs :: texts) ls

namespace Reads

variable {texts : List (List Char)} {ls ms : List GraphLine}

/-- Some lines of text have one reading at most. -/
theorem unique (hl : Reads texts ls) (hm : Reads texts ms) : ls = ms := by
  induction hl generalizing ms with
  | nil => cases hm; rfl
  | line hl _ ih =>
    cases hm with
    | line hm hms =>
      rw [GraphLine.toList_text] at hl hm
      have hchars := (List.append_cancel_right hl).trans (List.append_cancel_right hm).symm
      rw [GraphLine.chars_injective hchars, ih hms]
    | other hother => exact absurd hl (hother _)
  | other hother _ ih =>
    cases hm with
    | line hm => exact absurd hm (hother _)
    | other _ hms => exact ih hms

theorem lines (ls : List GraphLine) (h : Reads texts ms) :
    Reads (ls.map GraphLine.chars ++ texts) (ls ++ ms) := by
  induction ls with
  | nil => exact h
  | cons l ls ih => exact .line l.toList_text ih

theorem others (others : List (List Char))
    (hothers : ∀ cs ∈ others, GraphLine.beginsAsLine cs = false) (h : Reads texts ls) :
    Reads (others ++ texts) ls := by
  induction others with
  | nil => exact h
  | cons cs others ih =>
    obtain ⟨hcs, hrest⟩ := List.forall_mem_cons.1 hothers
    refine .other (fun l hl => ?_) (ih hrest)
    rw [GraphLine.toList_text] at hl
    rw [← List.append_cancel_right hl, l.beginsAsLine_chars] at hcs
    cases hcs

end Reads

/-- Each of the lines is followed by a line feed. -/
theorem splitOn_flatMap_lines {texts : List (List Char)} (h : ∀ cs ∈ texts, '\n' ∉ cs) :
    (texts.flatMap (· ++ ['\n'])).splitOn '\n' = texts ++ [[]] := by
  induction texts with
  | nil => rfl
  | cons cs texts ih =>
    obtain ⟨hcs, hrest⟩ := List.forall_mem_cons.1 h
    rw [List.flatMap_cons, List.append_assoc, List.singleton_append,
      List.splitOn_append_cons_self_of_not_mem hcs, ih hrest, List.cons_append]

namespace Pattern

/-- The lines before those of a drawing. -/
def opening : List String := ["digraph Pattern \x7b", "  rankdir=TB;", "  node [shape=box];"]

theorem toList_toDot (p : Pattern) : p.toDot.toList =
    (opening.map String.toList ++ ((p.graph 0).1.map GraphLine.chars ++ [['\x7d']])).flatMap
      (· ++ ['\n']) := by
  have hopening : "digraph Pattern \x7b\n  rankdir=TB;\n  node [shape=box];\n".toList =
      (opening.map String.toList).flatMap (· ++ ['\n']) := by
    decide
  have hlines : ((p.graph 0).1.map GraphLine.text).flatMap String.toList =
      ((p.graph 0).1.map GraphLine.chars).flatMap (· ++ ['\n']) := by
    simp only [List.flatMap_map, GraphLine.toList_text]
  have hclosing : "\x7d\n".toList = [['\x7d']].flatMap (· ++ ['\n']) := rfl
  -- by definition; the equation of the drawing takes long to make because of the literals in it
  show ("digraph Pattern \x7b\n  rankdir=TB;\n  node [shape=box];\n" ++
    String.join ((p.graph 0).1.map GraphLine.text) ++ "\x7d\n").toList = _
  rw [String.toList_append, String.toList_append, String.toList_join, hopening, hlines, hclosing,
    List.flatMap_append, List.flatMap_append, List.append_assoc]

/-- The lines of a drawing stand between three lines and one. -/
theorem splitOn_toDot (p : Pattern) : p.toDot.toList.splitOn '\n' =
    opening.map String.toList ++ ((p.graph 0).1.map GraphLine.chars ++ [['\x7d'], []]) := by
  have hfeeds : ∀ cs ∈ opening.map String.toList ++
      ((p.graph 0).1.map GraphLine.chars ++ [['\x7d']]), '\n' ∉ cs := by
    have hopening : ∀ cs ∈ opening.map String.toList, '\n' ∉ cs := by decide
    have hlines : ∀ cs ∈ (p.graph 0).1.map GraphLine.chars, '\n' ∉ cs :=
      List.forall_mem_map.2 fun l _ => l.line_feed_not_mem_chars
    simpa [or_imp, forall_and] using And.intro hopening hlines
  rw [toList_toDot, splitOn_flatMap_lines hfeeds]
  simp only [List.append_assoc, List.singleton_append]

/-- The text of a drawing has one reading: the lines of the drawing. -/
theorem reads_toDot_iff {p : Pattern} {ls : List GraphLine} :
    Reads (p.toDot.toList.splitOn '\n') ls ↔ ls = (p.graph 0).1 := by
  have hreads : Reads (p.toDot.toList.splitOn '\n') (p.graph 0).1 := by
    have hclosing : Reads [['\x7d'], []] [] := .others [['\x7d'], []] (by decide) .nil
    have hlines := hclosing.lines (p.graph 0).1
    rw [List.append_nil] at hlines
    rw [splitOn_toDot]
    exact hlines.others _ (by decide)
  exact ⟨fun h => h.unique hreads, fun h => h ▸ hreads⟩

end Pattern
end PatternSweep
