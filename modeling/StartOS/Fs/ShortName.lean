import Mathlib.Data.List.GetD
import Mathlib.Data.List.TakeWhile
import StartOS.Fs.FatDir

/-! # Short names

What `FillShortFile` stores for a name, and what `copysfn` makes of it. The
capitals are made in the part of the entry that is as long as the name before its
last dot, which is not the part where the name is.
-/

namespace StartOS

namespace CString

variable {name : CString}

def baseLength (name : CString) : ℕ := name.strrchr.getD name.strlen

def base (name : CString) : List UInt8 := (List.range name.baseLength).map name.bytes

def extension (name : CString) : List UInt8 :=
  match name.strrchr with
  | some dot => (List.range (name.strlen - (dot + 1))).map fun i => name.bytes (dot + 1 + i)
  | none => []

theorem length_base : name.base.length = name.baseLength := by
  rw [base, List.length_map, List.length_range]

end CString

namespace Fat32FileSystem

def shortBase (name : CString) : List UInt8 :=
  if name.base.length > 8 then (name.base.take 6).map toUpCase ++ [0x7e, 0x31]
  else name.base.map toUpCase

def shortExtension (name : CString) : List UInt8 := (name.extension.take 3).map toUpCase

/-- What `copysfn` returns. -/
def copysfnLength (sfn : ByteMem) : ℕ :=
  let n := blankAt sfn 0 8
  let ext := blankAt sfn 8 3
  if ext = 0 then n else n + 1 + ext

def copiedName (sfn dst : ByteMem) : List UInt8 :=
  (List.range (copysfnLength sfn)).map (copysfn sfn dst)

def IsLower (c : UInt8) : Prop := 0x61 ≤ c ∧ c ≤ 0x7a

def unpadded (l : List UInt8) : List UInt8 := l.takeWhile (· ≠ 0x20)

def joinName (b x : List UInt8) : List UInt8 := if x = [] then b else b ++ 0x2e :: x

/-- The entry at `entry` gets the short form of the name: base and extension are padded, are read
back without the padding, and no other byte changes. -/
structure ShortNameStored (entry : ByteMem) (name : CString) : Prop where
  base : ∀ i < 8, (shortName entry name).1 i = (shortBase name).getD i 0x20
  extension : ∀ i < 3, (shortName entry name).1 (8 + i) = (shortExtension name).getD i 0x20
  readBack : ∀ dst, copiedName (shortName entry name).1 dst =
    joinName (shortBase name) (shortExtension name)
  outside : ∀ i, 11 ≤ i → (shortName entry name).1 i = entry i

def keptBase (name : CString) : List UInt8 :=
  name.base.take (if name.baseLength > 8 then 6 else 8)

/-- The names and entries for which all of this works: nothing that has a capital stands behind the
name where the loop over the base gets to, or in the extension where it does not, and there are no
blanks. -/
structure ShortNameFits (entry : ByteMem) (name : CString) : Prop where
  outside : ∀ i, 11 ≤ i → ¬(i < name.baseLength ∧ IsLower (entry i))
  extension : ∀ i < 3, 8 + i < name.baseLength ∨ ¬IsLower ((name.extension.take 3).getD i 0x20)
  base_noBlank : 0x20 ∉ keptBase name
  extension_noBlank : 0x20 ∉ name.extension.take 3

variable {entry sfn dst : ByteMem} {name : CString} {a n i : ℕ} {b x l : List UInt8}

theorem getD_map_range {f : ℕ → UInt8} {d : UInt8} :
    ((List.range n).map f).getD i d = if i < n then f i else d := by
  by_cases hi : i < n
  · simp [List.getD, hi]
  · simp [List.getD, hi]

section Read

theorem prefix_unpadded (l : List UInt8) : unpadded l <+: l := List.takeWhile_prefix _

theorem length_unpadded_le (l : List UInt8) : (unpadded l).length ≤ l.length :=
  (prefix_unpadded l).length_le

theorem unpadded_eq_iff : unpadded l = l ↔ 0x20 ∉ l := by
  rw [unpadded, List.takeWhile_eq_self_iff]
  constructor
  · intro h hmem
    exact absurd (h _ hmem) (by decide)
  · intro h c hc
    exact decide_eq_true fun he => h (he ▸ hc)

theorem blankAt_eq (hl : l.length ≤ n) (h : ∀ i < n, sfn (a + i) = l.getD i 0x20) :
    blankAt sfn a n = (unpadded l).length := by
  induction n generalizing a l with
  | zero =>
    rw [List.length_eq_zero_iff.mp (Nat.le_zero.mp hl)]
    rfl
  | succ n ih =>
    have hfirst := h 0 n.succ_pos
    rw [Nat.add_zero] at hfirst
    rw [blankAt, hfirst]
    cases l with
    | nil => rfl
    | cons c l =>
      have hrest := ih (a := a + 1) (l := l) (Nat.le_of_succ_le_succ hl) fun i hi => by
        rw [Nat.add_assoc, Nat.add_comm 1 i, h (i + 1) (Nat.succ_lt_succ hi)]
        rfl
      rw [List.getD_cons_zero, hrest, unpadded, unpadded, List.takeWhile_cons]
      by_cases hc : c = 0x20
      · simp [hc]
      · simp [hc]

theorem map_range_unpadded {f : ℕ → UInt8} (h : ∀ i < (unpadded l).length, f i = l.getD i 0x20) :
    (List.range (unpadded l).length).map f = unpadded l := by
  apply List.ext_getElem
  · rw [List.length_map, List.length_range]
  · intro i h₁ h₂
    rw [List.getElem_map, List.getElem_range, h i h₂, (prefix_unpadded l).getElem h₂,
      List.getD_eq_getElem?_getD, List.getElem?_eq_getElem (h₂.trans_le (length_unpadded_le l))]
    rfl

theorem copiedName_eq (hb : b.length ≤ 8) (hx : x.length ≤ 3) (h₁ : ∀ i < 8, sfn i = b.getD i 0x20)
    (h₂ : ∀ i < 3, sfn (8 + i) = x.getD i 0x20) :
    copiedName sfn dst = joinName (unpadded b) (unpadded x) := by
  have hlen₁ : blankAt sfn 0 8 = (unpadded b).length := blankAt_eq hb fun i hi => by
    rw [Nat.zero_add, h₁ i hi]
  have hlen₂ : blankAt sfn 8 3 = (unpadded x).length := blankAt_eq hx h₂
  have hle₁ := (length_unpadded_le b).trans hb
  have hle₂ := (length_unpadded_le x).trans hx
  have hempty : (unpadded x).length = 0 ↔ unpadded x = [] := List.length_eq_zero_iff
  rw [copiedName, copysfnLength, joinName, hlen₁, hlen₂]
  by_cases hext : unpadded x = []
  · rw [if_pos (hempty.mpr hext), if_pos hext]
    refine map_range_unpadded fun i hi => ?_
    rw [copysfn, hlen₁, hlen₂, if_pos (hempty.mpr hext), ByteMem.blit_of_mem (Nat.zero_le i) (by omega),
      Nat.sub_zero, h₁ i (hi.trans_le hle₁)]
  · rw [if_neg (mt hempty.mp hext), if_neg hext, Nat.add_assoc, List.range_add, List.map_append,
      Nat.add_comm 1, List.range_succ_eq_map, List.map_cons, List.map_cons, List.map_map,
        List.map_map]
    have hcopy : copysfn sfn dst = (((dst.blit 0 (unpadded b).length sfn).fill (unpadded b).length 1
        0x2e).blit ((unpadded b).length + 1) (unpadded x).length fun i => sfn (8 + i)).fill
        ((unpadded b).length + 1 + (unpadded x).length) 1 0 := by
      rw [copysfn, hlen₁, hlen₂, if_neg (mt hempty.mp hext)]
    rw [hcopy]
    congr 1
    · refine map_range_unpadded fun i hi => ?_
      rw [ByteMem.fill_of_not_mem (by omega), ByteMem.blit_of_not_mem (by omega),
        ByteMem.fill_of_not_mem (by omega), ByteMem.blit_of_mem (Nat.zero_le i) (by omega), Nat.sub_zero,
        h₁ i (hi.trans_le hle₁)]
    · congr 1
      · rw [ByteMem.fill_of_not_mem (by omega), ByteMem.blit_of_not_mem (by omega),
          ByteMem.fill_of_mem (by omega) (by omega)]
      · refine map_range_unpadded fun i hi => ?_
        have hi' : (unpadded b).length + (i + 1) - ((unpadded b).length + 1) = i := by omega
        simp only [Function.comp_apply]
        rw [ByteMem.fill_of_not_mem (by omega), ByteMem.blit_of_mem (by omega) (by omega), hi',
          h₂ i (hi.trans_le hle₂)]

theorem length_joinName : (joinName b x).length = b.length + if x = [] then 0 else x.length + 1 := by
  rw [joinName]
  split
  · rfl
  · rw [List.length_append, List.length_cons]

/-- The whole name is read back exactly when there are no blanks in it. -/
theorem joinName_unpadded_iff :
    joinName (unpadded b) (unpadded x) = joinName b x ↔ 0x20 ∉ b ∧ 0x20 ∉ x := by
  rw [← unpadded_eq_iff, ← unpadded_eq_iff]
  constructor
  · intro h
    have hlen := congrArg List.length h
    rw [length_joinName, length_joinName] at hlen
    have hb := length_unpadded_le b
    have hx := length_unpadded_le x
    have hnil : x = [] → unpadded x = [] := by
      rintro rfl
      rfl
    have hboth : (unpadded b).length = b.length ∧ (unpadded x).length = x.length := by
      by_cases hx₀ : x = []
      · rw [if_pos hx₀, if_pos (hnil hx₀)] at hlen
        exact ⟨hlen, by rw [hnil hx₀, hx₀]⟩
      · rw [if_neg hx₀] at hlen
        split at hlen <;> omega
    exact ⟨(prefix_unpadded b).eq_of_length hboth.1, (prefix_unpadded x).eq_of_length hboth.2⟩
  · rintro ⟨hb, hx⟩
    rw [hb, hx]

end Read

section Store

def withExtension (entry : ByteMem) (name : CString) : ByteMem :=
  match name.strrchr with
  | some dot =>
    (entry.fill 0 11 0x20).blit 8 (min (name.strlen - (dot + 1)) 3) fun i => name.bytes (dot + 1 + i)
  | none => entry.fill 0 11 0x20

def rawName (entry : ByteMem) (name : CString) : ByteMem :=
  if name.baseLength > 8 then
    (((withExtension entry name).blit 0 6 name.bytes).fill 6 1 0x7e).fill 7 1 0x31
  else (withExtension entry name).blit 0 name.baseLength name.bytes

theorem shortName_apply : (shortName entry name).1 i =
    if i < name.baseLength then toUpCase (rawName entry name i) else rawName entry name i := by
  rw [shortName, rawName, withExtension, CString.baseLength]
  cases name.strrchr <;> rfl

theorem withExtension_base (hi : i < 8) : withExtension entry name i = 0x20 := by
  rw [withExtension]
  cases name.strrchr with
  | none => exact ByteMem.fill_of_mem (by omega) (by omega)
  | some dot =>
    dsimp only
    rw [ByteMem.blit_of_not_mem (by omega), ByteMem.fill_of_mem (by omega) (by omega)]

theorem withExtension_extension (hi : i < 3) :
    withExtension entry name (8 + i) = (name.extension.take 3).getD i 0x20 := by
  rw [withExtension, CString.extension]
  cases name.strrchr with
  | none => exact ByteMem.fill_of_mem (by omega) (by omega)
  | some dot =>
    dsimp only
    rw [← List.map_take, List.take_range, getD_map_range, Nat.min_comm]
    split
    · rw [ByteMem.blit_of_mem (by omega) (by omega), Nat.add_sub_cancel_left]
    · rw [ByteMem.blit_of_not_mem (by omega), ByteMem.fill_of_mem (by omega) (by omega)]

theorem withExtension_outside (hi : 11 ≤ i) : withExtension entry name i = entry i := by
  rw [withExtension]
  cases name.strrchr with
  | none => exact ByteMem.fill_of_not_mem (by omega)
  | some dot =>
    dsimp only
    rw [ByteMem.blit_of_not_mem (by omega), ByteMem.fill_of_not_mem (by omega)]

theorem rawName_base (hi : i < 8) : rawName entry name i =
    if name.baseLength > 8 then if i < 6 then name.bytes i else if i = 6 then 0x7e else 0x31
    else if i < name.baseLength then name.bytes i else 0x20 := by
  rw [rawName]
  split
  · split
    · rw [ByteMem.fill_of_not_mem (by omega), ByteMem.fill_of_not_mem (by omega),
        ByteMem.blit_of_mem (by omega) (by omega), Nat.sub_zero]
    · split
      · rw [ByteMem.fill_of_not_mem (by omega), ByteMem.fill_of_mem (by omega) (by omega)]
      · rw [ByteMem.fill_of_mem (by omega) (by omega)]
  · split
    · rw [ByteMem.blit_of_mem (by omega) (by omega), Nat.sub_zero]
    · rw [ByteMem.blit_of_not_mem (by omega), withExtension_base hi]

theorem rawName_of_le (hi : 8 ≤ i) : rawName entry name i = withExtension entry name i := by
  rw [rawName]
  split
  · rw [ByteMem.fill_of_not_mem (by omega), ByteMem.fill_of_not_mem (by omega),
      ByteMem.blit_of_not_mem (by omega)]
  · rw [ByteMem.blit_of_not_mem (by omega)]

theorem toUpCase_eq_self {c : UInt8} : toUpCase c = c ↔ ¬IsLower c := by
  rw [toUpCase, IsLower]
  split
  · rename_i h
    refine iff_of_false (fun he => ?_) (not_not.mpr h)
    rw [← UInt8.toNat_inj, UInt8.toNat_sub] at he
    have := c.toNat_lt
    simp at he
    omega
  · rename_i h
    exact iff_of_true rfl h

theorem toUpCase_eq_blank {c : UInt8} : toUpCase c = 0x20 ↔ c = 0x20 := by
  rw [toUpCase]
  split
  · rename_i h
    rw [UInt8.le_iff_toNat_le, UInt8.le_iff_toNat_le] at h
    rw [← UInt8.toNat_inj, ← UInt8.toNat_inj, UInt8.toNat_sub]
    simp at h ⊢
    omega
  · rfl

theorem toUpCase_blank : toUpCase 0x20 = 0x20 := rfl

theorem getD_map_toUpCase : (l.map toUpCase).getD i 0x20 = toUpCase (l.getD i 0x20) := by
  conv_lhs => rw [← toUpCase_blank]
  exact List.getD_map ..

theorem shortName_base (hi : i < 8) :
    (shortName entry name).1 i = (shortBase name).getD i 0x20 := by
  rw [shortName_apply, rawName_base hi, shortBase, CString.length_base]
  by_cases hlong : name.baseLength > 8
  · have hlen : ((name.base.take 6).map toUpCase).length = 6 := by
      rw [List.length_map, List.length_take, CString.length_base]
      exact Nat.min_eq_left (by omega)
    rw [if_pos (by omega), if_pos hlong, if_pos hlong]
    by_cases h6 : i < 6
    · rw [if_pos h6, List.getD_append _ _ _ _ (by omega), getD_map_toUpCase, CString.base,
        ← List.map_take, List.take_range, getD_map_range, if_pos (Nat.lt_min.mpr ⟨h6, by omega⟩)]
    · rw [if_neg h6, List.getD_append_right _ _ _ _ (by omega), hlen]
      obtain rfl | rfl : i = 6 ∨ i = 7 := by omega
      · rfl
      · rfl
  · rw [if_neg hlong, if_neg hlong, getD_map_toUpCase, CString.base, getD_map_range]
    split
    · rfl
    · rfl

theorem shortName_extension (hi : i < 3) : (shortName entry name).1 (8 + i) =
      (shortExtension name).getD i 0x20 ↔
    8 + i < name.baseLength ∨ ¬IsLower ((name.extension.take 3).getD i 0x20) := by
  rw [shortName_apply, rawName_of_le (Nat.le_add_right 8 i), withExtension_extension hi, shortExtension,
    getD_map_toUpCase, ← toUpCase_eq_self]
  split
  · rename_i h
    exact iff_of_true rfl (.inl h)
  · rename_i h
    rw [or_iff_right h]
    exact eq_comm

theorem shortName_outside (hi : 11 ≤ i) : (shortName entry name).1 i = entry i ↔
    ¬(i < name.baseLength ∧ IsLower (entry i)) := by
  rw [shortName_apply, rawName_of_le (by omega), withExtension_outside hi]
  split
  · rename_i h
    rw [toUpCase_eq_self]
    simp only [h, true_and]
  · rename_i h
    exact iff_of_true rfl fun hc => h hc.1

end Store

theorem blank_mem_map_toUpCase : 0x20 ∈ l.map toUpCase ↔ 0x20 ∈ l := by
  rw [List.mem_map]
  constructor
  · rintro ⟨c, hc, he⟩
    rwa [← toUpCase_eq_blank.mp he]
  · intro h
    exact ⟨0x20, h, rfl⟩

theorem blank_mem_shortBase : 0x20 ∈ shortBase name ↔ 0x20 ∈ keptBase name := by
  rw [shortBase, keptBase, CString.length_base]
  split
  · rw [List.mem_append, blank_mem_map_toUpCase, or_iff_left (by decide)]
  · rename_i h
    rw [blank_mem_map_toUpCase, List.take_of_length_le (by rw [CString.length_base]; omega)]

theorem length_shortBase_le : (shortBase name).length ≤ 8 := by
  rw [shortBase]
  split
  · rw [List.length_append, List.length_map, List.length_take]
    simp
  · rw [List.length_map]
    omega

theorem length_shortExtension_le : (shortExtension name).length ≤ 3 := by
  rw [shortExtension, List.length_map, List.length_take]
  exact Nat.min_le_left ..

/-- `FillShortFile` stores a short name exactly under these conditions. -/
theorem shortNameStored_iff : ShortNameStored entry name ↔ ShortNameFits entry name := by
  have hread (h : ∀ i < 3, (shortName entry name).1 (8 + i) = (shortExtension name).getD i 0x20)
      (dst : ByteMem) : copiedName (shortName entry name).1 dst =
        joinName (unpadded (shortBase name)) (unpadded (shortExtension name)) :=
    copiedName_eq length_shortBase_le length_shortExtension_le (fun i hi => shortName_base hi) h
  constructor
  · rintro ⟨-, hext, hback, hout⟩
    have hback := hback fun _ => 0
    rw [hread hext, joinName_unpadded_iff, blank_mem_shortBase, shortExtension,
      blank_mem_map_toUpCase] at hback
    exact ⟨fun i hi => (shortName_outside hi).mp (hout i hi),
      fun i hi => (shortName_extension hi).mp (hext i hi), hback.1, hback.2⟩
  · rintro ⟨hout, hext, hbase, hblank⟩
    have hext : ∀ i < 3, (shortName entry name).1 (8 + i) = (shortExtension name).getD i 0x20 :=
      fun i hi => (shortName_extension hi).mpr (hext i hi)
    refine ⟨fun i hi => shortName_base hi, hext, fun dst => ?_,
      fun i hi => (shortName_outside hi).mpr (hout i hi)⟩
    rw [hread hext, joinName_unpadded_iff, blank_mem_shortBase, shortExtension,
      blank_mem_map_toUpCase]
    exact ⟨hbase, hblank⟩

/-- `a.txt`. -/
def dotTxt : CString :=
  ⟨fun i => [0x61, 0x2e, 0x74, 0x78, 0x74].getD i 0, 5, rfl, by decide⟩

/-- The extension of `a.txt` stays in small letters. -/
theorem not_shortNameStored_dotTxt : ¬ShortNameStored (fun _ => 0) dotTxt := by
  intro h
  exact absurd (h.extension 0 (by decide)) (by decide)

end Fat32FileSystem

end StartOS
