import StartOS.Fs.PathScan
import StartOS.Os.OpenAt

/-! # Creating by path

`openat` with `O_CREATE` looks for the parent of its path, forgets what it has
found and creates the last name it saw in the directory it started from. The
calls of `Create` are recorded, so that the directory of a new entry is known.
-/

namespace StartOS

open Hoare

namespace InodeTree

open InodeM

variable {σ : Type} (T : InodeTree σ)

def Steady : Prop := ∀ ip c fs, (T.lookup ip c fs).2 = fs

/-- What `Create` of `c` does: from then on a lookup in that directory of a name that `answers` goes
with `c` may find the new entry. Every other lookup finds what it found, and directories stay
directories. -/
structure Adds (answers : List UInt8 → List UInt8 → Prop) : Prop where
  lookup : ∀ {dp c mode fs k fs'}, T.create dp c mode fs = .ok (k, fs') → 0 ≤ k →
    ∀ ip d, ¬(ip = dp ∧ answers c d) → (T.lookup ip d fs').1 = (T.lookup ip d fs).1
  isDir : ∀ {dp c mode fs k fs'}, T.create dp c mode fs = .ok (k, fs') → 0 ≤ k →
    ∀ ip, isDirMode (T.mode fs ip) = true → isDirMode (T.mode fs' ip) = true

/-- Before its last name the path comes back to the directory it starts from. The last name is read
back from the buffer as one name, and on the way the path looks up no name in that directory that an
entry of the last one could answer for. -/
structure ParentIsBase (answers : List UInt8 → List UInt8 → Prop) (behind : List UInt8) (base : ℕ)
    (path : List UInt8) (fs : σ) : Prop where
  parent : T.parentOf base (pathNames behind path) fs = some base
  single : ∀ c, (pathNames behind path).getLast? = some c → pathNames behind c = [c]
  clear : ∀ c pre d post, (pathNames behind path).getLast? = some c →
    (pathNames behind path).dropLast = pre ++ d :: post → (T.lookups base pre fs).1 = some base →
      ¬answers c d

variable {T} {s : InodeTable σ} {ip jp base cwd flags mode : ℕ} {dir : Option FileHandle}
  {fs fs' : σ} {behind junk path name c : List UInt8} {cs ds : List (List UInt8)} {b : Bool}
  {makes : ℕ → List UInt8 → σ → Bool} {answers : List UInt8 → List UInt8 → Prop} {k : ℤ}

/-! ## Lookups change nothing -/

theorem Steady.lookups (hT : T.Steady) (ip : ℕ) (cs : List (List UInt8)) (fs : σ) :
    (T.lookups ip cs fs).2 = fs := by
  induction cs generalizing ip fs with
  | nil => rfl
  | cons c cs ih =>
    have hl := hT ip c fs
    rw [InodeTree.lookups]
    split
    · cases hlook : T.lookup ip c fs with
      | mk r fs' =>
        rw [hlook] at hl
        obtain rfl : fs' = fs := hl
        cases r with
        | none => rfl
        | some next => exact ih _ _
    · rfl

theorem Steady.lookups_append (hT : T.Steady) (h : (T.lookups ip cs fs).1 = some jp) :
    (T.lookups ip (cs ++ ds) fs).1 = (T.lookups jp ds fs).1 := by
  induction cs generalizing ip with
  | nil =>
    obtain rfl : ip = jp := Option.some.inj h
    rfl
  | cons c cs ih =>
    have hl := hT ip c fs
    rw [InodeTree.lookups] at h
    rw [List.cons_append, InodeTree.lookups]
    split at h
    · rename_i hdir
      rw [if_pos hdir]
      cases hlook : T.lookup ip c fs with
      | mk r fs' =>
        rw [hlook] at h hl
        obtain rfl : fs' = fs := hl
        cases r with
        | none => cases h
        | some next => exact ih h
    · cases h

/-- A walk that looks up no name for which the new entry could answer leads where it led. -/
theorem Adds.lookups (hadd : T.Adds answers) (hT : T.Steady)
    (hmade : T.create base c mode fs = .ok (k, fs')) (hk : 0 ≤ k)
    (hclear : ∀ pre d post, cs = pre ++ d :: post → (T.lookups ip pre fs).1 = some base →
      ¬answers c d) (h : (T.lookups ip cs fs).1 = some jp) :
    (T.lookups ip cs fs').1 = some jp := by
  induction cs generalizing ip with
  | nil => exact h
  | cons d cs ih =>
    have hfs := hT ip d fs
    have hfs' := hT ip d fs'
    have hsame := hadd.lookup hmade hk ip d fun ⟨he, hans⟩ =>
      hclear [] d cs rfl (congrArg some he) hans
    rw [InodeTree.lookups] at h ⊢
    split at h
    · rename_i hdir
      rw [if_pos (hadd.isDir hmade hk ip hdir)]
      cases hlook : T.lookup ip d fs with
      | mk r fs₁ =>
      cases hlook' : T.lookup ip d fs' with
      | mk r' fs₁' =>
        rw [hlook] at h hfs hsame
        rw [hlook'] at hfs' hsame
        obtain rfl : fs₁ = fs := hfs
        obtain rfl : fs₁' = fs' := hfs'
        obtain rfl : r' = r := hsame
        cases r' with
        | none => cases h
        | some next =>
          refine ih (fun pre e post he hpre => ?_) h
          refine hclear (d :: pre) e post (by rw [he]; rfl) ?_
          rw [InodeTree.lookups, if_pos hdir, hlook]
          exact hpre
    · cases h

section Keeps

variable (fs)

end Keeps

/-! ## The calls of `openat` -/

theorem parentOf_eq_some (h : T.parentOf ip cs fs = some jp) :
    ∃ lead c, cs = lead ++ [c] ∧ (T.lookups ip lead fs).1 = some jp := by
  unfold parentOf at h
  split at h
  · cases h
  · rename_i hne
    obtain ⟨hfound, -⟩ := Option.filter_eq_some_iff.mp h
    exact ⟨cs.dropLast, cs.getLast hne, (List.dropLast_append_getLast hne).symm, hfound⟩

theorem ParentIsBase.lookups (hp : T.ParentIsBase answers behind base path fs) (hT : T.Steady)
    (hadd : T.Adds answers) (hlast : (pathNames behind path).getLast? = some c)
    (hmade : T.create base c mode fs = .ok (k, fs')) (hk : 0 ≤ k) :
    (T.lookups base (pathNames behind path) fs').1 = (T.lookups base (pathNames behind c) fs').1 := by
  obtain ⟨lead, c', hnames, hlead⟩ := parentOf_eq_some hp.parent
  rw [hp.single c hlast]
  rw [hnames, List.getLast?_concat] at hlast
  obtain rfl : c' = c := Option.some.inj hlast
  have hclear : ∀ pre d post, lead = pre ++ d :: post → (T.lookups base pre fs).1 = some base →
      ¬answers c' d := by
    intro pre d post he hpre
    refine hp.clear c' pre d post ?_ ?_ hpre
    · rw [hnames, List.getLast?_concat]
    · rw [hnames, List.dropLast_concat, he]
  rw [hnames, hT.lookups_append (hadd.lookups hT hmade hk hclear hlead)]

theorem pathNames_of_short (behind : List UInt8) {e : List UInt8} (he : e ∈ elements path)
    (hlen : e.length < maxFileName) :
    Volume.bufferName behind e = e ∧ pathNames behind e = [e] := by
  have hbuf : Volume.bufferName behind e = e := if_neg (by omega)
  obtain ⟨hne, hslash⟩ := mem_elements he
  refine ⟨hbuf, ?_⟩
  rw [pathNames, elements_of_not_mem hslash, if_neg hne, List.map_singleton, hbuf]

/-- Where an entry answers for its own name only and the names are short, the path to a file that is
not there yet meets the condition when it comes back to the directory it starts from. -/
theorem parentIsBase_of_parent (hT : T.Steady) (hself : ∀ c d, answers c d → d = c)
    (hshort : ∀ e ∈ elements path, e.length < maxFileName)
    (hnew : (T.lookups base (pathNames behind path) fs).1 = none)
    (hp : T.parentOf base (pathNames behind path) fs = some base) :
    T.ParentIsBase answers behind base path fs := by
  obtain ⟨lead, c, hnames, hlead⟩ := parentOf_eq_some hp
  refine ⟨hp, fun c' hc => ?_, fun c' pre d post hc he hpre hans => ?_⟩
  · have hmem : c' ∈ pathNames behind path := List.mem_of_getLast? hc
    obtain ⟨e, he, rfl⟩ := List.mem_map.mp hmem
    obtain ⟨hbuf, hread⟩ := pathNames_of_short behind he (hshort e he)
    rw [hbuf, hread]
  · rw [hnames, List.getLast?_concat] at hc
    rw [hnames, List.dropLast_concat] at he
    obtain rfl : c = c' := Option.some.inj hc
    obtain rfl := hself c d hans
    -- the last name would have been found on the way back
    rw [he] at hlead
    rw [hnames, hT.lookups_append (he ▸ hlead)] at hnew
    rw [hT.lookups_append hpre, InodeTree.lookups] at hlead
    rw [InodeTree.lookups] at hnew
    split at hlead
    · rename_i hdir
      rw [if_pos hdir] at hnew
      cases hlook : T.lookup base d fs with
      | mk r fs' =>
        rw [hlook] at hlead hnew
        cases r with
        | none => cases hlead
        | some next => cases hnew
    · cases hlead

end InodeTree

end StartOS
