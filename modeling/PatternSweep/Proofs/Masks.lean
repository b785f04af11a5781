import PatternSweep.Proofs.SpanMembers
import PatternSweep.Sweep.Basic

/-!
# Masks and what a sweep keeps

A subject is `Over` a text if it is the text alone or the occurrences of some alphabet in it. The
mask of an atom, where the occurrences have one, holds exactly the offsets whose character the atom
takes (`Subject.mem_mask`), so a sweep does the same with masks and without them.

A workspace is `Sound` if every mask it holds is the one that would be worked out afresh.
`Yields s x P` says that the computation `x`, from whatever sound workspace it starts, gives
something with the property `P` and leaves a sound workspace. What a sweep gives is determined by
such a property of its members, so it does not depend on the workspace.
-/

namespace PatternSweep

/-! ### Occurrences -/

section

variable {text alphabet : List Char} {q : Char → Bool} {c : Char} {p : Nat} {mask : OffsetSet}

theorem mem_offsetsWhere : p ∈ offsetsWhere text q ↔ ∃ c, text[p]? = some c ∧ q c = true := by
  simp only [offsetsWhere, OffsetSet.mem_ofList, List.mem_filterMap, Prod.exists,
    List.mem_zipIdx_iff_getElem?, Option.ite_none_right_eq_some, Option.some.injEq]
  constructor
  · intro hx
    obtain ⟨⟨c, _, hc, hq, rfl⟩, -⟩ := hx
    exact ⟨c, hc, hq⟩
  · rintro ⟨c, hc, hq⟩
    have := (List.getElem?_eq_some_iff.1 hc).1
    exact ⟨⟨c, p, hc, hq, rfl⟩, by omega⟩

/-- The bytes of an ASCII text are its characters, one each. -/
theorem textBytes_eq_map (h : ∀ c ∈ text, isAscii c = true) :
    textBytes text = text.map (·.val.toUInt8) := by
  induction text with
  | nil => rfl
  | cons c text ih =>
    obtain ⟨hc, htext⟩ := List.forall_mem_cons.1 h
    have hsize : c.utf8Size = 1 := by
      rw [Char.utf8Size_eq_one_iff]
      simp only [isAscii, decide_eq_true_eq, UInt32.lt_iff_toNat_lt, UInt32.le_iff_toNat_le,
        UInt32.reduceToNat] at hc ⊢
      omega
    rw [textBytes, List.flatMap_cons, String.utf8EncodeChar_eq_singleton hsize, List.map_cons,
      ← ih htext]
    rfl

theorem mem_bytePlaces {bytes : List UInt8} {b : UInt8} :
    p ∈ bytePlaces bytes b ↔ bytes[p]? = some b := by
  simp [bytePlaces, List.mem_zipIdx_iff_getElem?]

/-- ASCII characters with the same byte are the same. -/
theorem eq_of_toUInt8_eq {d : Char} (hc : isAscii c = true) (hd : isAscii d = true)
    (h : c.val.toUInt8 = d.val.toUInt8) : c = d := by
  simp only [isAscii, decide_eq_true_eq, UInt32.lt_iff_toNat_lt, UInt32.reduceToNat] at hc hd
  have hbyte := congrArg UInt8.toNat h
  rw [UInt32.toNat_toUInt8, UInt32.toNat_toUInt8, Nat.mod_eq_of_lt (by omega),
    Nat.mod_eq_of_lt (by omega)] at hbyte
  exact Char.ext (UInt32.toNat_inj.1 hbyte)

/-- The search for bytes and that for characters find the same offsets. -/
theorem mem_offsetsOfChar : p ∈ offsetsOfChar text c ↔ text[p]? = some c := by
  unfold offsetsOfChar
  split
  next hascii =>
    have hascii : ∀ d ∈ text, isAscii d = true := List.all_eq_true.1 hascii
    rw [OffsetSet.mem_ofList, textBytes_eq_map hascii]
    constructor
    · rintro ⟨hp, -⟩
      split at hp
      next hc =>
        rw [mem_bytePlaces, List.getElem?_map, Option.map_eq_some_iff] at hp
        obtain ⟨d, hd, hbyte⟩ := hp
        rw [hd, eq_of_toUInt8_eq (hascii d (List.mem_of_getElem? hd)) hc hbyte]
      next => exact (List.not_mem_nil hp).elim
    · intro hp
      have hlt := (List.getElem?_eq_some_iff.1 hp).1
      rw [if_pos (hascii c (List.mem_of_getElem? hp)), mem_bytePlaces, List.getElem?_map, hp]
      exact ⟨rfl, by omega⟩
  next => simp [mem_offsetsWhere]

theorem size_offsetsOfChar : (offsetsOfChar text c).size = text.length + 1 := by
  unfold offsetsOfChar
  split
  next => exact OffsetSet.size_ofList _ _
  next => exact OffsetSet.size_ofList _ _

namespace Occurrences

theorem offsetsOf_build (h : (build text alphabet).offsetsOf c = some mask) :
    mask = offsetsOfChar text c := by
  obtain ⟨l₁, l₂, hl, -⟩ := List.lookup_eq_some_iff.1 h
  have hmem : (c, mask) ∈ (build text alphabet).masks := by simp [hl]
  obtain ⟨d, -, hd⟩ := List.mem_map.1 hmem
  cases hd
  rfl

/-- The union of the masks of the characters with a property holds the offsets of these. -/
theorem mem_foldl_union {letters : List Char} {all : OffsetSet}
    (hall : all.size = text.length + 1) :
    p ∈ (letters.map fun c => (c, offsetsOfChar text c)).foldl
        (fun all r => if q r.1 then all.union r.2 else all) all ↔
      p ∈ all ∨ ∃ c ∈ letters, q c = true ∧ text[p]? = some c := by
  induction letters generalizing all with
  | nil => simp
  | cons d letters ih =>
    rw [List.map_cons, List.foldl_cons]
    by_cases hq : q d = true
    · simp only [hq, if_true]
      rw [ih (by exact hall), OffsetSet.mem_union (hall.trans size_offsetsOfChar.symm),
        mem_offsetsOfChar]
      simp [hq, or_assoc]
    · simp only [hq, Bool.false_eq_true, if_false]
      rw [ih hall]
      simp [hq]

theorem mem_offsetsSuchThat_build (h : (build text alphabet).offsetsSuchThat q = some mask) :
    p ∈ mask ↔ ∃ c, text[p]? = some c ∧ q c = true := by
  unfold offsetsSuchThat at h
  split at h
  next hcovers =>
    cases h
    -- the alphabet covers the text, so its masks together miss no character
    have hletters : ∀ c ∈ text, c ∈ alphabet.eraseDups := by
      simpa [build] using hcovers
    refine (mem_foldl_union rfl).trans ?_
    rw [or_iff_right OffsetSet.not_mem_empty]
    constructor
    · rintro ⟨c, -, hq, hc⟩
      exact ⟨c, hc, hq⟩
    · rintro ⟨c, hc, hq⟩
      exact ⟨c, hletters c (List.mem_of_getElem? hc), hq, hc⟩
  next => cases h

end Occurrences

end

/-! ### Subjects over a text -/

namespace Subject

variable {s : Subject} {text : List Char} {a : Atom} {p : Nat}

/-- `s` is the text `text`, alone or with the occurrences of some alphabet in it. -/
def Over (s : Subject) (text : List Char) : Prop :=
  s = .plain text ∨ ∃ alphabet, s = .indexed (.build text alphabet)

theorem Over.chars_eq (hs : s.Over text) : s.chars = text.toArray := by
  rcases hs with rfl | ⟨_, rfl⟩ <;> rfl

theorem Over.length_eq (hs : s.Over text) : s.length = text.length := by
  rw [length, hs.chars_eq, List.size_toArray]

theorem Over.takes_iff (hs : s.Over text) :
    s.takes a p = true ↔ ∃ c, text[p]? = some c ∧ a.accepts c = true := by
  rw [takes, hs.chars_eq, List.getElem?_toArray, Option.any_eq_true]

theorem Over.lt_of_takes (hs : s.Over text) (h : s.takes a p = true) : p < text.length := by
  obtain ⟨c, hc, -⟩ := hs.takes_iff.1 h
  exact (List.getElem?_eq_some_iff.1 hc).1

/-- The mask of an atom, if the occurrences have one. -/
def mask? (s : Subject) (a : Atom) : Option OffsetSet :=
  match s.occurrences, a with
  | none, _ => none
  | some o, .literal c => o.offsetsOf c
  | some o, a => o.offsetsSuchThat a.accepts

/-- A mask holds exactly the offsets whose character the atom takes. -/
theorem mem_mask (hs : s.Over text) {mask : OffsetSet} (h : s.mask? a = some mask) :
    p ∈ mask ↔ s.takes a p = true := by
  rw [hs.takes_iff]
  rcases hs with rfl | ⟨alphabet, rfl⟩
  · cases h
  · cases a with
    | literal c =>
      rw [Occurrences.offsetsOf_build h, mem_offsetsOfChar]
      simp [Atom.accepts]
    | any => exact Occurrences.mem_offsetsSuchThat_build h
    | oneOf k => exact Occurrences.mem_offsetsSuchThat_build h

/-- The offsets of a set whose character the atom takes, by its mask if there is one. -/
def picked (s : Subject) (a : Atom) (set : OffsetSet) : OffsetSet :=
  match s.mask? a with
  | some mask => set.inter mask
  | none => set.filter (s.takes a)

theorem mem_picked (hs : s.Over text) {set : OffsetSet} :
    p ∈ s.picked a set ↔ p ∈ set ∧ s.takes a p = true := by
  unfold picked
  split
  next mask h => rw [OffsetSet.mem_inter, mem_mask hs h]
  next => exact OffsetSet.mem_filter

theorem size_picked (s : Subject) (a : Atom) (set : OffsetSet) :
    (s.picked a set).size = set.size := by
  unfold picked
  split <;> rfl

end Subject

/-! ### Computations of a sweep -/

/-- Every mask of the workspace is the one that the occurrences give. -/
def Workspace.Sound (s : Subject) (w : Workspace) : Prop :=
  ∀ o ∈ s.occurrences, ∀ r ∈ w.masks, r.2 = o.offsetsSuchThat r.1.accepts

theorem Workspace.sound_empty (s : Subject) : Workspace.empty.Sound s := by
  intro o _ r hr
  simp [Workspace.empty] at hr

/-- From every sound workspace, `x` gives something with the property `P` and leaves a sound
workspace. -/
def Yields {β : Type} (s : Subject) (x : Run β) (P : β → Prop) : Prop :=
  ∀ w, w.Sound s → P (x.run w).1 ∧ (x.run w).2.Sound s

namespace Yields

variable {s : Subject} {β γ : Type} {x : Run β} {f : β → Run γ} {P P' : β → Prop} {Q : γ → Prop}

theorem pure {a : β} (h : P a) : Yields s (pure a) P := fun _ hw => ⟨h, hw⟩

theorem bind (hx : Yields s x P) (hf : ∀ a, P a → Yields s (f a) Q) : Yields s (x >>= f) Q :=
  fun w hw => hf _ (hx w hw).1 _ (hx w hw).2

theorem imp (hx : Yields s x P) (h : ∀ a, P a → P' a) : Yields s x P' :=
  fun w hw => ⟨h _ (hx w hw).1, (hx w hw).2⟩

end Yields

/-- Computations of a sweep are spoken about by what they yield, whatever they report. -/
def sweepModality (s : Subject) (ρ : Type) : Modality Run ρ where
  always x P := Yields s x fun a => ∃ l, P a l
  pure h := Yields.pure ⟨_, h⟩
  bind hx hf := hx.bind fun a ⟨l, ha⟩ => (hf a l ha).imp fun _ ⟨_, hb⟩ => ⟨_, hb⟩
  imp hx h := hx.imp fun a ⟨l, ha⟩ => ⟨l, h a l ha⟩

namespace Sweep

variable {s : Sweep} {text : List Char} {a : Atom} {n : Nat}

theorem yields_classMask {o : Occurrences} (ho : s.subject.occurrences = some o) :
    Yields s.subject (classMask a o) (· = o.offsetsSuchThat a.accepts) := by
  intro w hw
  cases h : w.masks.lookup a with
  | some mask =>
    -- a mask that is there was worked out before, and is as good as a new one
    have hrun : (classMask a o).run w = (mask, w) := by
      unfold classMask
      simp [h]
      rfl
    obtain ⟨l₁, l₂, hl, -⟩ := List.lookup_eq_some_iff.1 h
    rw [hrun]
    exact ⟨hw o ho (a, mask) (by simp [hl]), hw⟩
  | none =>
    have hrun : (classMask a o).run w = (o.offsetsSuchThat a.accepts,
        { w with masks := (a, o.offsetsSuchThat a.accepts) :: w.masks }) := by
      unfold classMask
      simp [h]
      rfl
    rw [hrun]
    refine ⟨rfl, fun o' ho' r hr => ?_⟩
    obtain rfl : o = o' := Option.some.inj (ho.symm.trans ho')
    rcases List.mem_cons.1 hr with rfl | hr
    · rfl
    · exact hw o ho r hr

theorem yields_atomMask : Yields s.subject (s.atomMask a) (· = s.subject.mask? a) := by
  unfold atomMask Subject.mask?
  cases h : s.subject.occurrences with
  | none => exact Yields.pure rfl
  | some o =>
    cases a with
    | literal c => exact Yields.pure rfl
    | any => exact yields_classMask h
    | oneOf k => exact yields_classMask h

theorem yields_hits (input : OffsetSet) :
    Yields s.subject (s.hits a input) (· = s.subject.picked a input) := by
  unfold hits Subject.picked
  refine yields_atomMask.bind fun mask hmask => ?_
  rw [← hmask]
  cases mask with
  | none => exact Yields.pure rfl
  | some mask => exact Yields.pure rfl

theorem yields_record {node : Pattern} {action : Unit → Action} :
    Yields s.subject (s.record node action) fun _ => True := by
  unfold record
  split
  next => exact fun w hw => ⟨trivial, hw⟩
  next => exact Yields.pure trivial

variable {σ : Type} [Recordable σ] {node : Pattern} {input : σ}

theorem yields_step {x : Run σ} {P : σ → Prop} (h : Yields s.subject x P) :
    Yields s.subject (s.step node input x) P := by
  unfold step
  refine h.bind fun out hout => yields_record.bind fun _ _ => ?_
  exact Yields.pure hout

end Sweep

end PatternSweep
