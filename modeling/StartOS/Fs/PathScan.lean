import Mathlib.Data.List.GetD
import StartOS.Fs.PathWalk
import StartOS.Lib.ByteMem

/-! # Taking a path apart

`SkipElememt` copies each element of a path into a buffer of `kMaxFileName`
bytes. Repeated calls find the pieces between the slashes; the buffer holds a
terminated string as long as the element leaves room for the terminator.
-/

namespace StartOS

/-- The copy of an element to the buffer `name`, of which it writes at most `kMaxFileName` bytes. A
path is shorter than the memory of the machine, so its length is an `int`. -/
def copyElement (element : List UInt8) (name : ByteMem) : ByteMem :=
  let len := element.length
  if len ≥ maxFileName then name.blit 0 maxFileName fun j => element.getD j 0
  else (name.blit 0 len fun j => element.getD j 0).blit len 1 fun _ => 0

/-- `SkipElememt`: the rest of the path, or `none` for 0, and the buffer `name`. -/
def skipElememt (path : List UInt8) (name : ByteMem) : Option (List UInt8) × ByteMem :=
  match skipElement path with
  | none => (none, name)
  | some (rest, element) => (some rest, copyElement element name)

theorem length_of_skipElememt {path rest : List UInt8} {name name' : ByteMem}
    (h : skipElememt path name = (some rest, name')) : rest.length < path.length := by
  unfold skipElememt at h
  split at h
  · cases h
  · rename_i hs
    cases h
    exact length_of_skipElement hs

/-- Calls of `SkipElememt` until it returns 0: the buffer after each call that finds an element. -/
def skipAll (path : List UInt8) (name : ByteMem) : List ByteMem :=
  match _h : skipElememt path name with
  | (none, _) => []
  | (some rest, name) => name :: skipAll rest name
termination_by path.length
decreasing_by exact length_of_skipElememt _h

def segments (path : List UInt8) : List (List UInt8) := (path.splitOn slash).filter (· ≠ [])

/-- The buffer `name` holds the string `s` with its terminator. -/
structure HoldsName (name : ByteMem) (s : List UInt8) : Prop where
  room : s.length < maxFileName
  bytes : (List.range s.length).map name = s
  terminated : name s.length = 0

/-- The calls of `SkipElememt` find the segments of the path one after the other, each of them in
the buffer up to `kMaxFileName - 1` bytes. -/
def Splits (path : List UInt8) (name : ByteMem) : Prop :=
  List.Forall₂ (fun seg name => HoldsName name (seg.take (maxFileName - 1))) (segments path)
    (skipAll path name)

variable {path rest element p q s : List UInt8} {name name' : ByteMem}

theorem segments_append_slash (p q : List UInt8) :
    segments (p ++ slash :: q) = segments p ++ segments q := by
  rw [segments, List.splitOn_append_cons_self, List.filter_append]
  rfl

theorem segments_of_not_mem (h : slash ∉ p) : segments p = if p = [] then [] else [p] := by
  rw [segments, List.splitOn_eq_singleton h]
  by_cases hp : p = []
  · simp [hp]
  · simp [hp]

theorem elements_of_not_mem (h : slash ∉ p) : elements p = if p = [] then [] else [p] := by
  have hne : ∀ c ∈ p, c ≠ slash := by
    rintro c hc rfl
    exact h hc
  cases p with
  | nil => exact elements_of_none rfl
  | cons c p =>
    have hc : c ≠ slash := hne c (by simp)
    have hdrop : (c :: p).dropWhile (· = slash) = c :: p := List.dropWhile_cons_of_neg (by simpa)
    have htake : (c :: p).takeWhile (· ≠ slash) = c :: p :=
      List.takeWhile_eq_self_iff.mpr (by simpa using hne)
    have hrest : (c :: p).dropWhile (· ≠ slash) = [] :=
      List.dropWhile_eq_nil_iff.mpr (by simpa using hne)
    have hskip : skipElement (c :: p) = some ([], c :: p) := by
      rw [skipElement, hdrop, if_neg (by simp), htake, hrest]
      rfl
    rw [elements_of_some hskip, elements_of_none rfl, if_neg (by simp)]

theorem elements_eq_segments (path : List UInt8) : elements path = segments path := by
  induction hn : path.length using Nat.strong_induction_on generalizing path with
  | _ n ih =>
  by_cases h : slash ∈ path
  · obtain ⟨p, q, rfl⟩ := List.append_of_mem h
    rw [List.length_append, List.length_cons] at hn
    rw [elements_append_slash, segments_append_slash, ih _ (by omega) p rfl, ih _ (by omega) q rfl]
  · rw [elements_of_not_mem h, segments_of_not_mem h]

theorem skipAll_of_none (h : skipElement path = none) : skipAll path name = [] := by
  have hs : skipElememt path name = (none, name) := by rw [skipElememt, h]
  rw [skipAll]
  split
  · rfl
  · rename_i h'
    rw [hs] at h'
    cases h'

theorem skipAll_of_some (h : skipElement path = some (rest, element)) :
    skipAll path name = copyElement element name :: skipAll rest (copyElement element name) := by
  have hs : skipElememt path name = (some rest, copyElement element name) := by rw [skipElememt, h]
  rw [skipAll]
  split
  · rename_i h'
    rw [hs] at h'
    cases h'
  · rename_i h'
    rw [hs] at h'
    cases h'
    rfl

theorem copyElement_of_lt (name : ByteMem) (h : element.length < maxFileName) :
    HoldsName (copyElement element name) element := by
  unfold copyElement
  rw [if_neg (by omega)]
  constructor
  · exact h
  · apply List.ext_getElem (by simp)
    intro i hi hi'
    rw [List.getElem_map, List.getElem_range, ByteMem.blit_of_not_mem (Or.inl hi'),
      ByteMem.blit_of_mem (Nat.zero_le _) (by omega), Nat.sub_zero, List.getD_eq_getElem _ _ hi']
  · exact ByteMem.blit_of_mem le_rfl (Nat.lt_succ_self _)

theorem not_holdsName_of_ge (h : maxFileName ≤ element.length) (h0 : 0 ∉ element) :
    ¬HoldsName (copyElement element name) (element.take (maxFileName - 1)) := by
  have hmax : maxFileName = 35 := rfl
  rintro ⟨-, -, hterm⟩
  have hlen : (element.take (maxFileName - 1)).length = 34 := by
    rw [List.length_take]
    omega
  have hlt : 34 < element.length := by omega
  unfold copyElement at hterm
  rw [hlen, if_pos h, ByteMem.blit_of_mem (Nat.zero_le _) (by omega), Nat.sub_zero,
    List.getD_eq_getElem _ _ hlt] at hterm
  exact h0 (hterm ▸ List.getElem_mem hlt)

theorem holdsName_iff (h0 : 0 ∉ element) :
    HoldsName (copyElement element name) (element.take (maxFileName - 1)) ↔
      element.length < maxFileName := by
  constructor
  · intro h
    by_contra hge
    exact not_holdsName_of_ge (by omega) h0 h
  · intro h
    rw [List.take_of_length_le (by omega)]
    exact copyElement_of_lt _ h

/-- The string that is read from the buffer, with the bytes `behind` it up to the next terminator. -/
def heldName (behind : List UInt8) (name : ByteMem) : List UInt8 :=
  ((List.range maxFileName).map name ++ behind).takeWhile (· ≠ 0)

theorem heldName_copyElement {behind : List UInt8} (h0 : 0 ∉ element) (hb : 0 ∉ behind) :
    heldName behind (copyElement element name) = Volume.bufferName behind element := by
  have hmax : maxFileName = 35 := rfl
  have hne : ∀ {l : List UInt8}, 0 ∉ l → ∀ c ∈ l, c ≠ 0 := by
    rintro l hl c hc rfl
    exact hl hc
  unfold heldName Volume.bufferName
  by_cases h : element.length ≥ maxFileName
  · have hbuf : (List.range maxFileName).map
        (copyElement element name) = element.take maxFileName := by
      unfold copyElement
      rw [if_pos h]
      apply List.ext_getElem (by simp; omega)
      intro i hi hi'
      simp only [List.length_map, List.length_range] at hi
      rw [List.getElem_map, List.getElem_range, ByteMem.blit_of_mem (Nat.zero_le _) (by omega),
        Nat.sub_zero, List.getD_eq_getElem _ _ (by omega), List.getElem_take]
    rw [if_pos h, hbuf, List.takeWhile_eq_self_iff]
    intro c hc
    rcases List.mem_append.mp hc with hc | hc
    · simpa using hne h0 c (List.mem_of_mem_take hc)
    · simpa using hne hb c hc
  · have hname := copyElement_of_lt name (show element.length < maxFileName by omega)
    obtain ⟨k, hk⟩ : ∃ k, maxFileName = element.length + (k + 1) :=
      ⟨maxFileName - element.length - 1, by omega⟩
    have htake : element.takeWhile (· ≠ 0) = element :=
      List.takeWhile_eq_self_iff.mpr (by simpa using hne h0)
    rw [if_neg h, hk, List.range_add, List.map_append, hname.bytes, List.append_assoc,
      List.takeWhile_append, htake, if_pos rfl, List.range_succ_eq_map]
    simp [hname.terminated]

theorem skipElement_subset (h : skipElement path = some (rest, element)) :
    rest ⊆ path ∧ element ⊆ path := by
  rw [skipElement] at h
  split at h
  · cases h
  · cases h
    have hfront := (List.dropWhile_suffix (l := path) (· = slash)).subset
    constructor
    · exact fun c hc => hfront ((List.dropWhile_suffix _).subset
        ((List.dropWhile_suffix _).subset hc))
    · exact fun c hc => hfront ((List.takeWhile_prefix _).subset hc)

theorem skipAll_map_heldName {behind : List UInt8} (h0 : 0 ∉ path) (hb : 0 ∉ behind) :
    (skipAll path name).map (heldName behind) =
      (elements path).map (Volume.bufferName behind) := by
  induction hn : path.length using Nat.strong_induction_on generalizing path name with
  | _ n ih =>
  cases h : skipElement path with
  | none => rw [elements_of_none h, skipAll_of_none h, List.map_nil, List.map_nil]
  | some r =>
    obtain ⟨rest, element⟩ := r
    obtain ⟨hrest, helement⟩ := skipElement_subset h
    rw [elements_of_some h, skipAll_of_some h, List.map_cons, List.map_cons,
      heldName_copyElement (fun hc => h0 (helement hc)) hb,
      ih _ (hn ▸ length_of_skipElement h) (fun hc => h0 (hrest hc)) rfl]

theorem mem_elements {e : List UInt8} (h : e ∈ elements path) : e ≠ [] ∧ slash ∉ e := by
  induction hn : path.length using Nat.strong_induction_on generalizing path with
  | _ n ih =>
  by_cases hs : slash ∈ path
  · obtain ⟨p, q, rfl⟩ := List.append_of_mem hs
    rw [List.length_append, List.length_cons] at hn
    rw [elements_append_slash, List.mem_append] at h
    rcases h with h | h
    · exact ih _ (by omega) h rfl
    · exact ih _ (by omega) h rfl
  · rw [elements_of_not_mem hs] at h
    split at h
    · cases h
    · rename_i hne
      obtain rfl := List.mem_singleton.mp h
      exact ⟨hne, hs⟩

/-- Repeated calls of `SkipElememt` split a path as they should exactly when each of its segments
leaves room for the terminator. -/
theorem splits_iff (h0 : 0 ∉ path) :
    Splits path name ↔ ∀ seg ∈ segments path, seg.length < maxFileName := by
  unfold Splits
  rw [← elements_eq_segments]
  induction hn : path.length using Nat.strong_induction_on generalizing path name with
  | _ n ih =>
  cases h : skipElement path with
  | none =>
    rw [elements_of_none h, skipAll_of_none h]
    exact iff_of_true .nil (by simp)
  | some r =>
    obtain ⟨rest, element⟩ := r
    obtain ⟨hrest, helement⟩ := skipElement_subset h
    rw [elements_of_some h, skipAll_of_some h, List.forall₂_cons, List.forall_mem_cons,
      holdsName_iff fun hc => h0 (helement hc),
      ih _ (hn ▸ length_of_skipElement h) (fun hc => h0 (hrest hc)) rfl]

theorem splits_short : Splits [0x2f, 0x2f, 0x61, 0x2f, 0x62, 0x63, 0x2f] fun _ => 5 :=
  (splits_iff (by decide)).mpr (by decide)

/-- A name of 35 letters fills the buffer. -/
theorem not_splits_long : ¬Splits (List.replicate 35 0x61) fun _ => 5 := by
  have hmem : slash ∉ List.replicate 35 (0x61 : UInt8) := by decide
  have hskip : skipElement (List.replicate 35 0x61) = some ([], List.replicate 35 0x61) := by decide
  unfold Splits
  rw [segments_of_not_mem hmem, if_neg (by decide), skipAll_of_some hskip, List.forall₂_cons]
  rintro ⟨h, -⟩
  exact not_holdsName_of_ge (by decide) (by decide) h

end StartOS
