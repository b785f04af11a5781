import Mathlib.Tactic.IntervalCases
import PatternSweep.Json.Write
import PatternSweep.Proofs.JsonGrammar

/-!
# Reading and writing the texts of JSON

Every text that the grammar has for a value is read as that value (`Json.parse_of_denotes`), so no
text has two values (`Json.Denotes.unique`). The scan goes over the text of a part in the same way
whatever is open around it (`Scan.Reads`): that is the statement to be proved by induction on the
grammar. A number has not ended with its last digit, but any of the characters that may come after a
value ends it (`Scan.Ended`).

A value is `Plain` if it has a meaning throughout: all its numbers take at most 64 bits, and nothing
in it is another number or no text. What is written for such a value is one of its texts
(`Json.denotes_compact`).
-/

namespace PatternSweep.Json

namespace Scan

variable {s t u : Scan} {cs ds : List Char} {c : Char} {stack : List Container} {j : Json}
  {closable isKey : Bool} {d : TextDraft}

/-- The scan takes the characters one after the other and goes from `s` to `t`. -/
def Takes (s : Scan) (cs : List Char) (t : Scan) : Prop := cs.foldlM step s = some t

theorem Takes.nil : s.Takes [] s := rfl

theorem Takes.cons (hc : s.step c = some t) (hcs : t.Takes cs u) : s.Takes (c :: cs) u := by
  rw [Takes, List.foldlM_cons, hc]
  exact hcs

theorem Takes.append (hcs : s.Takes cs t) (hds : t.Takes ds u) : s.Takes (cs ++ ds) u := by
  rw [Takes, List.foldlM_append, hcs]
  exact hds

theorem Takes.single (hc : s.step c = some t) : s.Takes [c] t := .cons hc .nil

/-! ### Blanks -/

theorem step_value_of_isBlank (hc : isBlank c = true) :
    step ⟨stack, .value closable⟩ c = some ⟨stack, .value closable⟩ := by
  simp [step, valueStep, hc, goto]

theorem step_key_of_isBlank (hc : isBlank c = true) :
    step ⟨stack, .key closable⟩ c = some ⟨stack, .key closable⟩ := by
  simp [step, keyStep, hc, goto]

/-- Blanks, where each of them leaves the scan as it is. -/
theorem takes_blanks (hstay : ∀ c, isBlank c = true → s.step c = some s)
    (h : ∀ c ∈ cs, isBlank c = true) : s.Takes cs s := by
  induction cs with
  | nil => exact .nil
  | cons c cs ih =>
    obtain ⟨hc, hcs⟩ := List.forall_mem_cons.1 h
    exact .cons (hstay c hc) (ih hcs)

/-! ### Texts -/

/-- The draft after some characters without escapes. -/
def draft (cs : List Char) : TextDraft := ⟨cs.reverse, none, true⟩

theorem push_draft (cs : List Char) (c : Char) : (draft cs).push c = draft (cs ++ [c]) := by
  simp [draft, TextDraft.push]

theorem text?_draft (cs : List Char) : (draft cs).text? = some (String.ofList cs) := by
  simp [draft, TextDraft.text?]

/-- A code unit, by its four digits. -/
theorem takes_unit {n : Nat} (h : UnitForm cs n) :
    Takes ⟨stack, .text isKey d .plain⟩ cs ⟨stack, .text isKey (d.pushUnit n) .plain⟩ := by
  cases h with
  | @digits a b c e x y z t ha hb hc he =>
    refine .cons (t := ⟨stack, .text isKey d .escape⟩) rfl ?_
    refine .cons (t := ⟨stack, .text isKey d (.hex 3 0)⟩) rfl ?_
    refine .cons (t := ⟨stack, .text isKey d (.hex 2 x)⟩) ?_ ?_
    · simp [step, textStep, ha, goto]
    refine .cons (t := ⟨stack, .text isKey d (.hex 1 (16 * x + y))⟩) ?_ ?_
    · simp [step, textStep, hb, goto]
    refine .cons (t := ⟨stack, .text isKey d (.hex 0 (16 * (16 * x + y) + z))⟩) ?_ (.single ?_)
    · simp [step, textStep, hc, goto]
    · simp [step, textStep, he, goto]

theorem pushUnit_eq_push (d : TextDraft) (c : Char) : d.pushUnit c.toNat = d.push c := by
  have hvalid : c.toNat < 0xd800 ∨ 0xdfff < c.toNat ∧ c.toNat < 0x110000 := c.valid
  rw [TextDraft.pushUnit, if_neg (by omega), if_neg (by omega), Char.ofNat_toNat]

theorem pushUnit_pushUnit {high low : Nat} (hleading : 0xd800 ≤ high ∧ high < 0xdc00)
    (htrailing : 0xdc00 ≤ low ∧ low < 0xe000)
    (hc : c.toNat = 0x10000 + (high - 0xd800) * 0x400 + (low - 0xdc00)) :
    ((draft cs).pushUnit high).pushUnit low = draft (cs ++ [c]) := by
  have hhigh : (draft cs).pushUnit high = ⟨cs.reverse, some high, true⟩ := by
    rw [TextDraft.pushUnit, if_pos hleading]
    rfl
  rw [hhigh, TextDraft.pushUnit, if_neg (by omega), if_pos htrailing]
  simp only
  rw [← hc, Char.ofNat_toNat]
  simp [draft]

theorem takes_char (h : CharForm ds c) :
    Takes ⟨stack, .text isKey (draft cs) .plain⟩ ds
      ⟨stack, .text isKey (draft (cs ++ [c])) .plain⟩ := by
  cases h with
  | itself hquote hslash hcontrol =>
    refine .single ?_
    simp [step, textStep, hquote, hslash, Nat.not_lt.2 hcontrol, goto, push_draft]
  | @letter l _ hl =>
    refine .cons (t := ⟨stack, .text isKey (draft cs) .escape⟩) rfl (.single ?_)
    have hunit : l ≠ 'u' := by
      rintro rfl
      cases hl
    simp [step, textStep, hunit, hl, goto, push_draft]
  | unit hunit =>
    have htakes : Takes ⟨stack, .text isKey (draft cs) .plain⟩ _ _ := takes_unit hunit
    rwa [pushUnit_eq_push, push_draft] at htakes
  | units hhigh hlow hleading htrailing hc =>
    have htakes : Takes ⟨stack, .text isKey (draft cs) .plain⟩ _ _ :=
      (takes_unit hhigh).append (takes_unit hlow)
    rwa [pushUnit_pushUnit hleading htrailing hc] at htakes

theorem takes_chars (cs : List Char) {s : List Char} (h : CharForms ds s) :
    Takes ⟨stack, .text isKey (draft cs) .plain⟩ ds
      ⟨stack, .text isKey (draft (cs ++ s)) .plain⟩ := by
  induction h generalizing cs with
  | nil => simpa using Takes.nil
  | @cons _ _ c s hc _ ih =>
    have hrest := ih (cs ++ [c])
    rw [List.append_assoc] at hrest
    exact (takes_char hc).append hrest

/-- All characters of a text and the quote after it. -/
theorem takes_closed {text : String} (h : CharForms cs text.toList) :
    Takes ⟨stack, .text isKey (draft []) .plain⟩ (cs ++ ['"'])
      ⟨stack, if isKey then .colon (some text) else .after (.str text)⟩ := by
  refine (takes_chars [] h).append (.single ?_)
  cases isKey <;> simp [step, textStep, endText, text?_draft, goto]

theorem takes_str {text : String} (h : Quoted cs text) :
    Takes ⟨stack, .value closable⟩ cs ⟨stack, .after (.str text)⟩ := by
  cases h with
  | quoted h => exact .cons rfl (takes_closed h)

theorem takes_key {key : String} (h : KeyForm cs key) :
    Takes ⟨stack, .key closable⟩ cs ⟨stack, .colon (some key)⟩ := by
  induction h with
  | quoted h =>
    cases h with
    | quoted h => exact .cons rfl (takes_closed h)
  | before hc _ ih => exact .cons (step_key_of_isBlank hc) ih
  | after hc _ ih => exact ih.append (.single (by simp [step, colonStep, hc, goto]))

/-! ### Numbers -/

/-- The digits of a number other than zero, the first of which is no zero. -/
theorem takes_toDigits {n : Nat} (hn : 0 < n) :
    Takes ⟨stack, .value closable⟩ (Nat.toDigits 10 n) ⟨stack, .number false .digits n⟩ := by
  induction n using Nat.strongRecOn with
  | _ n ih =>
    by_cases hlt : n < 10
    · rw [Nat.toDigits_of_lt_base hlt]
      refine .single ?_
      interval_cases n <;> rfl
    · rw [Nat.toDigits_of_base_le (by decide) (by omega)]
      refine (ih (n / 10) (by omega) (by omega)).append (.single ?_)
      have hdigit : ∀ d < 10, (Nat.digitChar d).isDigit = true ∧
          (Nat.digitChar d).toNat - '0'.toNat = d := by decide
      obtain ⟨hisDigit, hvalue⟩ := hdigit (n % 10) (Nat.mod_lt _ (by decide))
      have hn : 10 * (n / 10) + n % 10 = n := Nat.div_add_mod _ _
      simp only [step, numberStep, hisDigit, hvalue, hn, goto, if_true]

/-! ### Values -/

/-- The value `j` has been read, but for a character that ends it where it is a number. -/
def Ended (s : Scan) (stack : List Container) (j : Json) : Prop :=
  s = ⟨stack, .after j⟩ ∨ ∃ part n, (part = .zero ∨ part = .digits) ∧
    s = ⟨stack, .number false part n⟩ ∧ number? false part n = some j

/-- The characters are read as `j`, whatever is open. -/
def Reads (cs : List Char) (j : Json) : Prop :=
  ∀ stack closable, ∃ s, Takes ⟨stack, .value closable⟩ cs s ∧ s.Ended stack j

/-- A character that a number does not go on with. -/
def EndsNumber (c : Char) : Prop := c.isDigit = false ∧ c ≠ '.' ∧ c ≠ 'e' ∧ c ≠ 'E'

instance : DecidablePred EndsNumber := fun c => by unfold EndsNumber; infer_instance

theorem endsNumber_of_isBlank (h : isBlank c = true) : EndsNumber c := by
  simp only [isBlank, Bool.or_eq_true, decide_eq_true_eq] at h
  rcases h with ((rfl | rfl) | rfl) | rfl <;> decide

theorem Ended.step_eq (h : s.Ended stack j) (hc : EndsNumber c) :
    s.step c = Scan.step ⟨stack, .after j⟩ c := by
  rcases h with rfl | ⟨part, n, hpart, rfl, hj⟩
  · rfl
  · obtain ⟨hdigit, hpoint, he⟩ := hc
    rcases hpart with rfl | rfl <;> simp [step, numberStep, hdigit, hpoint, he, hj, afterStep, goto]

theorem Ended.finish (h : s.Ended [] j) : s.finish = some j := by
  rcases h with rfl | ⟨part, n, -, rfl, hj⟩
  · rfl
  · exact hj

theorem reads_before (hc : isBlank c = true) (h : Reads cs j) : Reads (c :: cs) j := by
  intro stack closable
  obtain ⟨s, htakes, hended⟩ := h stack closable
  exact ⟨s, .cons (step_value_of_isBlank hc) htakes, hended⟩

theorem reads_after (hc : isBlank c = true) (h : Reads cs j) : Reads (cs ++ [c]) j := by
  intro stack closable
  obtain ⟨s, htakes, hended⟩ := h stack closable
  refine ⟨⟨stack, .after j⟩, htakes.append (.single ?_), Or.inl rfl⟩
  rw [hended.step_eq (endsNumber_of_isBlank hc)]
  simp [step, afterStep, hc, goto]

theorem reads_nat {n : Nat} (hn : n < natLimit) : Reads (Nat.toDigits 10 n) (.nat n) := by
  intro stack closable
  rcases Nat.eq_zero_or_pos n with rfl | hpos
  · exact ⟨_, .single rfl, Or.inr ⟨.zero, 0, Or.inl rfl, rfl, rfl⟩⟩
  · refine ⟨_, takes_toDigits hpos, Or.inr ⟨.digits, n, Or.inr rfl, rfl, ?_⟩⟩
    simp [number?, hn]

/-- An array from one of its items on. -/
theorem takes_items (done : List Json) {x : List Char × Json} {xs : List (List Char × Json)}
    (h : ∀ y ∈ x :: xs, Reads y.1 y.2) :
    Takes ⟨.items done :: stack, .value closable⟩
      (List.intercalate [','] ((x :: xs).map Prod.fst) ++ [']'])
      ⟨stack, .after (.arr (done.reverse ++ (x :: xs).map Prod.snd))⟩ := by
  induction xs generalizing done x closable with
  | nil =>
    obtain ⟨s, htakes, hended⟩ := h x List.mem_cons_self (.items done :: stack) closable
    rw [List.map_singleton, List.map_singleton, List.intercalate_singleton]
    refine htakes.append (.single ((hended.step_eq (by decide)).trans ?_))
    simp [step, afterStep, isBlank]
  | cons y ys ih =>
    obtain ⟨hx, hrest⟩ := List.forall_mem_cons.1 h
    obtain ⟨s, htakes, hended⟩ := hx (.items done :: stack) closable
    have hcomma : s.step ',' = some ⟨.items (x.2 :: done) :: stack, .value false⟩ :=
      hended.step_eq (by decide)
    have hitems : Takes ⟨.items (x.2 :: done) :: stack, .value false⟩ _ _ :=
      ih (x.2 :: done) hrest
    rw [List.reverse_cons, List.append_assoc done.reverse] at hitems
    rw [List.map_cons, List.map_cons, List.intercalate_cons_cons, List.append_assoc,
      List.append_assoc]
    exact htakes.append (.cons hcomma hitems)

theorem reads_items {items : List (List Char × Json)} (hne : items ≠ [])
    (h : ∀ x ∈ items, Reads x.1 x.2) :
    Reads ('[' :: List.intercalate [','] (items.map Prod.fst) ++ [']'])
      (.arr (items.map Prod.snd)) := by
  intro stack closable
  obtain ⟨x, xs, rfl⟩ := List.exists_cons_of_ne_nil hne
  exact ⟨_, .cons rfl (takes_items [] h), Or.inl rfl⟩

/-- An object from one of its keys on. -/
theorem takes_members (done : List (String × Json)) {m : MemberText} {ms : List MemberText}
    (hkeys : ∀ n ∈ m :: ms, KeyForm n.keyText n.key)
    (hvalues : ∀ n ∈ m :: ms, Reads n.valueText n.value) :
    Takes ⟨.members (some done) :: stack, .key closable⟩
      (List.intercalate [','] ((m :: ms).map MemberText.chars) ++ ['}'])
      ⟨stack, .after (.obj (done.reverse ++ (m :: ms).map MemberText.member))⟩ := by
  induction ms generalizing done m closable with
  | nil =>
    have hkey := hkeys m List.mem_cons_self
    obtain ⟨s, htakes, hended⟩ := hvalues m List.mem_cons_self
      (.member (some done) (some m.key) :: stack) false
    rw [List.map_singleton, List.map_singleton, List.intercalate_singleton, MemberText.chars,
      List.append_assoc]
    refine (takes_key hkey).append (.cons rfl (htakes.append (.single ?_)))
    refine (hended.step_eq (by decide)).trans ?_
    simp [step, afterStep, isBlank, addMember, endObject, MemberText.member]
  | cons n ms ih =>
    obtain ⟨hkey, hkeys⟩ := List.forall_mem_cons.1 hkeys
    obtain ⟨hvalue, hvalues⟩ := List.forall_mem_cons.1 hvalues
    obtain ⟨s, htakes, hended⟩ := hvalue (.member (some done) (some m.key) :: stack) false
    have hcomma : s.step ',' = some ⟨.members (some (m.member :: done)) :: stack, .key false⟩ :=
      hended.step_eq (by decide)
    have hmembers : Takes ⟨.members (some (m.member :: done)) :: stack, .key false⟩ _ _ :=
      ih (m.member :: done) hkeys hvalues
    rw [List.reverse_cons, List.append_assoc done.reverse] at hmembers
    rw [List.map_cons, List.map_cons, List.intercalate_cons_cons, MemberText.chars,
      List.append_assoc, List.append_assoc, List.append_assoc]
    exact (takes_key hkey).append (.cons rfl (htakes.append (.cons hcomma hmembers)))

theorem reads_members {members : List MemberText} (hne : members ≠ [])
    (hkeys : ∀ m ∈ members, KeyForm m.keyText m.key)
    (hvalues : ∀ m ∈ members, Reads m.valueText m.value) :
    Reads ('{' :: List.intercalate [','] (members.map MemberText.chars) ++ ['}'])
      (.obj (members.map MemberText.member)) := by
  intro stack closable
  obtain ⟨m, ms, rfl⟩ := List.exists_cons_of_ne_nil hne
  exact ⟨_, .cons rfl (takes_members [] hkeys hvalues), Or.inl rfl⟩

/-- A text is read as its value. -/
theorem reads_of_denotes (h : Denotes cs j) : Reads cs j := by
  induction h with
  | before hc _ ih => exact reads_before hc ih
  | after hc _ ih => exact reads_after hc ih
  | null => exact fun stack closable => ⟨⟨stack, .after .null⟩, rfl, Or.inl rfl⟩
  | yes => exact fun stack closable => ⟨⟨stack, .after (.bool true)⟩, rfl, Or.inl rfl⟩
  | no => exact fun stack closable => ⟨⟨stack, .after (.bool false)⟩, rfl, Or.inl rfl⟩
  | nat hn => exact reads_nat hn
  | str hs => exact fun stack closable => ⟨_, takes_str hs, Or.inl rfl⟩
  | noItems hblanks =>
    intro stack closable
    refine ⟨_, .cons rfl (.append (takes_blanks (fun c hc => ?_) hblanks) (.single rfl)), ?_⟩
    · exact step_value_of_isBlank hc
    · exact Or.inl rfl
  | items items hne _ ih => exact reads_items hne ih
  | noMembers hblanks =>
    intro stack closable
    refine ⟨_, .cons rfl (.append (takes_blanks (fun c hc => ?_) hblanks) (.single rfl)), ?_⟩
    · exact step_key_of_isBlank hc
    · exact Or.inl rfl
  | members members hne hkeys _ ih => exact reads_members hne hkeys ih

end Scan

variable {cs : List Char} {j k : Json}

theorem parseChars_of_denotes (h : Denotes cs j) : parseChars cs = some j := by
  obtain ⟨s, htakes, hended⟩ := Scan.reads_of_denotes h [] false
  have hscan : cs.foldlM Scan.step Scan.start = some s := htakes
  rw [parseChars, hscan]
  exact hended.finish

/-- Every text of JSON is read as its value. -/
theorem parse_of_denotes {text : String} (h : Denotes text.toList j) : parse text = some j :=
  parseChars_of_denotes h

/-- No text has two values. -/
theorem Denotes.unique (hj : Denotes cs j) (hk : Denotes cs k) : j = k :=
  Option.some.inj ((parseChars_of_denotes hj).symm.trans (parseChars_of_denotes hk))

/-! ### What is written -/

/-- All numbers in a value take at most 64 bits, and every part of it has a meaning. -/
inductive Plain : Json → Prop
  | null : Plain .null
  | bool (b : Bool) : Plain (.bool b)
  | nat {n : Nat} (h : n < natLimit) : Plain (.nat n)
  | str (s : String) : Plain (.str s)
  | arr {items : List Json} (h : ∀ j ∈ items, Plain j) : Plain (.arr items)
  | obj {members : List (String × Json)} (h : ∀ m ∈ members, Plain m.2) : Plain (.obj members)

theorem hexDigit?_digitChar : ∀ d < 16, hexDigit? (Nat.digitChar d) = some d := by decide

/-- A control character is written as a code unit below 32. -/
theorem unitForm_control {c : Char} (hc : c.toNat < 0x20) :
    UnitForm ['\\', 'u', '0', '0', Nat.digitChar (c.toNat / 16), Nat.digitChar (c.toNat % 16)]
      c.toNat := by
  have hzero : hexDigit? '0' = some 0 := rfl
  have hform := UnitForm.digits hzero hzero
    (hexDigit?_digitChar (c.toNat / 16) (by omega)) (hexDigit?_digitChar (c.toNat % 16) (by omega))
  have hvalue : 16 * (16 * (16 * 0 + 0) + c.toNat / 16) + c.toNat % 16 = c.toNat := by omega
  rwa [hvalue] at hform

theorem charForm_textChar (c : Char) : CharForm (textChar c) c := by
  unfold textChar
  split_ifs with hquote hslash hline hreturn htab hback hfeed hcontrol
  · exact .letter (by rw [hquote]; rfl)
  · exact .letter (by rw [hslash]; rfl)
  · exact .letter (by rw [hline]; rfl)
  · exact .letter (by rw [hreturn]; rfl)
  · exact .letter (by rw [htab]; rfl)
  · exact .letter (by rw [hback]; rfl)
  · exact .letter (by rw [hfeed]; rfl)
  · exact .unit (unitForm_control hcontrol)
  · exact .itself hquote hslash (Nat.not_lt.1 hcontrol)

theorem charForms_flatMap (s : List Char) : CharForms (s.flatMap textChar) s := by
  induction s with
  | nil => exact .nil
  | cons c s ih => exact .cons (charForm_textChar c) ih

theorem quoted_textChars (s : String) : Quoted (textChars s) s :=
  .quoted (charForms_flatMap s.toList)

theorem intercalate_cons_eq (c : Char) (x : List Char) (xs : List (List Char)) :
    List.intercalate [c] (x :: xs) = x ++ xs.flatMap (c :: ·) := by
  induction xs generalizing x with
  | nil => simp
  | cons y xs ih => rw [List.intercalate_cons_cons, ih, List.append_assoc, List.flatMap_cons]; rfl

theorem compactItems_eq (js : List Json) :
    compactItems js = (js.map compactChars).flatMap (',' :: ·) := by
  induction js with
  | nil => rfl
  | cons j js ih =>
    rw [compactItems, ih]
    rfl

/-- A member as it is written without blanks. -/
def MemberText.compact (m : String × Json) : MemberText :=
  ⟨textChars m.1, m.1, compactChars m.2, m.2⟩

theorem compactMembers_eq (ms : List (String × Json)) :
    compactMembers ms =
      (ms.map (MemberText.chars ∘ MemberText.compact)).flatMap (',' :: ·) := by
  induction ms with
  | nil => rfl
  | cons m ms ih =>
    rw [compactMembers, ih]
    rfl

theorem denotes_arr {items : List Json} (h : ∀ j ∈ items, Denotes (compactChars j) j) :
    Denotes (compactChars (.arr items)) (.arr items) := by
  cases items with
  | nil => exact @Denotes.noItems [] (List.forall_mem_nil _)
  | cons j js =>
    have hitems := Denotes.items ((j :: js).map fun k => (compactChars k, k)) (by simp)
      (List.forall_mem_map.2 h)
    rw [List.map_map, List.map_map] at hitems
    have hvalues : (j :: js).map (Prod.snd ∘ fun k => (compactChars k, k)) = j :: js :=
      List.map_id' _
    rw [hvalues] at hitems
    rw [compactChars, List.cons_append, compactItems_eq, ← intercalate_cons_eq]
    exact hitems

theorem denotes_obj {members : List (String × Json)}
    (h : ∀ m ∈ members, Denotes (compactChars m.2) m.2) :
    Denotes (compactChars (.obj members)) (.obj members) := by
  cases members with
  | nil => exact @Denotes.noMembers [] (List.forall_mem_nil _)
  | cons m ms =>
    have hmembers := Denotes.members ((m :: ms).map MemberText.compact) (by simp)
      (List.forall_mem_map.2 fun n _ => .quoted (quoted_textChars n.1)) (List.forall_mem_map.2 h)
    rw [List.map_map, List.map_map] at hmembers
    have hvalues : (m :: ms).map (MemberText.member ∘ MemberText.compact) = m :: ms :=
      List.map_id' _
    rw [hvalues] at hmembers
    rw [List.map_cons, intercalate_cons_eq, ← compactMembers_eq] at hmembers
    exact hmembers

/-- What is written for a plain value is one of its texts. -/
theorem denotes_compactChars (h : j.Plain) : Denotes (compactChars j) j := by
  induction h with
  | null => exact .null
  | bool b =>
    cases b with
    | false => exact .no
    | true => exact .yes
  | nat h => exact .nat h
  | str s => exact .str (quoted_textChars s)
  | arr _ ih => exact denotes_arr ih
  | obj _ ih => exact denotes_obj ih

theorem denotes_compact (h : j.Plain) : Denotes j.compact.toList j := by
  rw [compact, String.toList_ofList]
  exact denotes_compactChars h

end PatternSweep.Json
