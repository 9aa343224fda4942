import StartOS.Fs.ListingRun

/-! # Listing the devices

The offset of a file on the devices counts on only when a call has been through all
of them. A call that has room for some of them leaves it where it was, and the next
one begins with the first device again.
-/

namespace StartOS

open Hoare

variable {bufs : ℕ → ℕ × ℤ} {off : ℕ → ℕ} {res : ℕ → Option Returned} {rest : List Piece} {len : ℤ}
  {i : ℕ}

namespace DeviceFileSystem

variable {children : List DevInodeInfo} {c : DevInodeInfo} {cs : List DevInodeInfo} {tmp : ByteMem}
  {hd : ReadDirHeader} {fpOffset buf o k : ℕ}

/-- What `ReadDir` makes a record of for a device. -/
def devPiece (info : DevInodeInfo) : Piece where
  bytes := info.name
  ino := info.inum
  type := 8
  length_lt := info.name_lt.trans (by norm_num)

/-- Before call `i`, the number of the records that are made up and are still to come. -/
def dotsLeft (len : ℕ → ℤ) : ℕ → ℕ
  | 0 => 2
  | i + 1 => dotsLeft len i - (len i / 32).toNat

def devRoom (len : ℕ → ℤ) (i : ℕ) : ℤ := len i - 32 * dotsLeft len i

theorem devLoop_eq {iter : List DevInodeInfo} {x : ℤ} : devLoop tmp fpOffset iter x hd =
    ((fillPieces tmp (iter.map devPiece) hd).2.used, (fillPieces tmp (iter.map devPiece) hd).2.out,
      if (fillPieces tmp (iter.map devPiece) hd).1 = [] then ((x + iter.length) % 2 ^ 64).toNat
      else fpOffset) := by
  induction iter generalizing hd x with
  | nil =>
    rw [devLoop, List.map_nil, fillPieces, List.length_nil, if_pos rfl, Nat.cast_zero, add_zero]
  | cons info iter ih =>
    rw [devLoop, List.map_cons]
    obtain ⟨h, hfull | hrec⟩ := filldir_cases tmp hd (fun i => (devPiece info).bytes.getD i 0)
      (devPiece info).bytes.length (devPiece info).ino (devPiece info).type
    · have hrun : filldir tmp hd (fun i => info.name.getD i 0) info.name.length info.inum 8 =
          (-1, h) := hfull
      rw [fillPieces_cons_full hfull, if_neg (List.cons_ne_nil _ _), hrun]
      rfl
    · have hrun : filldir tmp hd (fun i => info.name.getD i 0) info.name.length info.inum 8 =
          (0, h) := hrec
      rw [fillPieces_cons_room hrec, hrun]
      dsimp only
      rw [if_neg (lt_irrefl 0), ih, List.length_cons, Nat.cast_succ, add_assoc, add_comm 1]

/-- A call of the devices with `k` of the records that are made up still to come. -/
theorem readDir_spec (tmp : ByteMem) (buf : ℕ) (hlen : children.length ≤ 11) (hk : o + k = 2)
    (hroom : BufferFor (dotPieces k ++ children.map devPiece) len) :
    ∃ rest, Served (dotPieces k ++ children.map devPiece) len
        (readDir tmp children 1 o buf len).1 (records (readDir tmp children 1 o buf len).2.1) rest ∧
      (readDir tmp children 1 o buf len).2.2 =
        if rest = [] then 2 + children.length else 2 - (rest.length - children.length) := by
  have hdots : (if 1 = 1 then 2 - o else 0) = k := by
    rw [if_pos rfl]
    omega
  rcases hfill : fillPieces tmp (dotPieces k) ⟨buf, len, 0, 0, []⟩ with ⟨rest, h₁⟩
  have happend := fillPieces_append tmp (dotPieces k) (children.map devPiece)
    ⟨buf, len, 0, 0, []⟩
  have hsuf := fillPieces_suffix tmp (dotPieces k) ⟨buf, len, 0, 0, []⟩
  have hstart := fillDots_eq tmp ⟨buf, len, 0, 0, []⟩
    (show k ≤ 2 by omega) (show o + k < 2 ^ 64 by omega)
  rw [hfill] at hstart happend hsuf
  dsimp only at hstart happend hsuf
  have hle := hsuf.length_le
  rw [length_dotPieces] at hle
  by_cases hrest : rest = []
  · subst hrest
    rw [if_pos rfl] at happend
    rw [decide_eq_true rfl, List.length_nil, Nat.sub_zero, hk] at hstart
    have hrun : readDir tmp children 1 o buf len = devLoop tmp 2 children 2 h₁ := by
      rw [readDir, hdots, hstart]
      rfl
    rcases hrec : fillPieces tmp (children.map devPiece) h₁ with ⟨left, h₂⟩
    have hsuf' := (fillPieces_suffix tmp (children.map devPiece) h₁).length_le
    rw [devLoop_eq, hrec] at hrun
    rw [hrec] at happend hsuf'
    rw [List.length_map] at hsuf'
    refine ⟨left, ?_, ?_⟩
    · rw [hrun]
      exact served_of_fill hroom.nonneg hroom.lt happend
    · rw [hrun]
      dsimp only at hsuf' ⊢
      split
      · omega
      · omega
  · rw [if_neg hrest] at happend
    rw [decide_eq_false hrest] at hstart
    have hrun : readDir tmp children 1 o buf len = (h₁.used, h₁.out, o + (k - rest.length)) := by
      rw [readDir, hdots, hstart]
    refine ⟨rest ++ children.map devPiece, ?_, ?_⟩
    · rw [hrun]
      exact served_of_fill hroom.nonneg hroom.lt happend
    · rw [hrun, if_neg (by simp [hrest]), List.length_append, List.length_map]
      dsimp only
      omega

/-- A call of `ReadDir` in the root of the devices. -/
def Call (children : List DevInodeInfo) (o : ℕ) (b : ℕ × ℤ) (r : Option Returned) : Prop :=
  ∃ tmp, r = some (.of (readDir tmp children 1 o b.1 b.2))

section Runs

variable {lens : ℕ → ℤ}

theorem Call.spec {b : ℕ × ℤ} {r : Option Returned} (hcall : Call children o b r)
    (hlen : children.length ≤ 11) (hk : o + k = 2)
    (hroom : BufferFor (dotPieces k ++ children.map devPiece) b.2) :
    ∃ q rest, r = some q ∧ Served (dotPieces k ++ children.map devPiece) b.2 q.used q.recs rest ∧
      q.offset = if rest = [] then 2 + children.length else 2 - (rest.length - children.length) := by
  obtain ⟨tmp, rfl⟩ := hcall
  obtain ⟨rest, hserved, hoff⟩ := readDir_spec tmp b.1 hlen hk hroom
  exact ⟨_, rest, rfl, hserved, hoff⟩

theorem room_for_dots (hroom : BufferFor (dotPieces 2 ++ children.map devPiece) len) : 32 ≤ len := by
  have hdot := hroom.size_le (dotPiece 0) (by simp [dotPieces])
  rwa [size_dotPiece (by omega)] at hdot

theorem exists_first (hc : children = c :: cs)
    (hroom : ∀ i, BufferFor (dotPieces 2 ++ children.map devPiece) (bufs i).2) :
    ∃ i, (devPiece c).size ≤ devRoom (fun i => (bufs i).2) i := by
  have hsize := (hroom 2).size_le (devPiece c) (by simp [hc])
  have h₀ := room_for_dots (hroom 0)
  have h₁ := room_for_dots (hroom 1)
  have hleft : dotsLeft (fun i => (bufs i).2) 2 = 0 := by
    simp only [dotsLeft]
    omega
  refine ⟨2, ?_⟩
  rw [devRoom, hleft]
  simpa using hsize

end Runs

end DeviceFileSystem

end StartOS
