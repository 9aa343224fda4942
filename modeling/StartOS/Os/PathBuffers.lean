import StartOS.Os.WorkingDir

/-! # Paths in their buffers

`getAbsolutePath`, `calAbsolute`, `vfs::mkdirat` and `vfs::chdir` put a directory and
a path one behind the other into an array of `MAXPATH` bytes. None of them looks at
the lengths, so an account is kept of how far each array is written.
-/

namespace StartOS

/-- An array, and the place behind the last byte that was stored. -/
structure PathBuffer where
  bytes : ByteMem
  extent : ℕ

def strlen (s : ByteMem) : ℕ := strnlen s (2 ^ 31)

def stringAt (s : ByteMem) : List UInt8 := (List.range (strlen s)).map s

namespace PathBuffer

def untouched (bytes : ByteMem) : PathBuffer := ⟨bytes, 0⟩

/-- Store `n` bytes from `off` on. -/
def put (b : PathBuffer) (off n : ℕ) (f : ℕ → UInt8) : PathBuffer where
  bytes := b.bytes.blit off n f
  extent := if n = 0 then b.extent else max b.extent (off + n)

/-- `memset(path, 0, MAXPATH)`. -/
def clear (b : PathBuffer) : PathBuffer := b.put 0 maxPath fun _ => 0

/-- `safestrcpy` into the array. -/
def copyString (b : PathBuffer) (src : ByteMem) (n : ℕ) : PathBuffer where
  bytes := safestrcpy b.bytes src n
  extent := max b.extent
    (strnlen src (n - 1) + if strnlen src (n - 1) < n - 1 then 2 else 1)

/-- `getAbsolutePath` into the array `newPath`. -/
def getAbsolutePath (curdir path : ByteMem) (newPath : PathBuffer) : PathBuffer :=
  let newPath := newPath.clear
  let oldpath := if path 0 = 0x2e ∧ path 1 = slash then fun i => path (i + 2) else path
  if oldpath 0 = slash then newPath.put 0 (strlen oldpath) oldpath
  else (newPath.put 0 (strlen curdir) curdir).put (strlen curdir) (strlen oldpath) oldpath

/-- `calAbsolute`: its own array, which held `junk`, and the one of the path. -/
def calAbsolute (curdir : ByteMem) (path : PathBuffer) (junk : ByteMem) :
    PathBuffer × PathBuffer :=
  let newPath := getAbsolutePath curdir path.bytes (untouched junk)
  (newPath, path.put 0 maxPath newPath.bytes)

end PathBuffer

/-- What the first argument of `mkdirat` stands for. -/
inductive DirFd
  /-- `AT_FDCWD`. -/
  | cwd
  /-- A descriptor without a file. -/
  | closed
  /-- A descriptor of a file with this `filepath`. -/
  | file (filepath : ByteMem)

def DirFd.base (curdir : ByteMem) : DirFd → ByteMem
  | file fp => fp
  | _ => curdir

namespace PathBuffer

/-- `vfs::mkdirat` up to its path, in an array that held `junk`. -/
def mkdirat (curdir : ByteMem) (dirfd : DirFd) (filepath junk : ByteMem) : Kernel PathBuffer :=
  let path := (untouched junk).clear
  match dirfd with
  | .cwd => .ok (getAbsolutePath curdir filepath path)
  | .closed =>
    if filepath 0 = slash then .ok (path.put 0 (strlen filepath) filepath) else .error .fault
  | .file fp =>
    if filepath 0 = slash then .ok (path.put 0 (strlen filepath) filepath)
    else .ok ((path.put 0 (strlen fp) fp).put (strlen fp) (strlen filepath) filepath)

/-- The slash that `vfs::chdir` puts behind a path. An empty path has the byte `below` in front. -/
def close (below : UInt8) (b : PathBuffer) : PathBuffer :=
  let n := strlen b.bytes
  let last := if n = 0 then below else b.bytes (n - 1)
  if last ≠ slash then (b.put n 1 fun _ => slash).put (n + 1) 1 fun _ => 0 else b

/-- What `vfs::chdir` leaves: its result, the path as `open` has found it, the path at the end and
`currentDir`. -/
structure Chdir where
  result : ℤ
  opened : PathBuffer
  path : PathBuffer
  currentDir : PathBuffer

/-- `vfs::chdir`. Whether there is a free file handle, what a file system finds at a path, the byte
below the array and what the array held are given. -/
def chdir (handle : Bool) (opens : List UInt8 → Option Bool) (below : UInt8)
    (currentDir : PathBuffer) (filepath junk : ByteMem) : Kernel Chdir :=
  if handle = false then .error (.panic "alloc file")
  else
    let opened := getAbsolutePath currentDir.bytes filepath (untouched junk).clear
    match opens (stringAt opened.bytes) with
    | none => .ok ⟨-1, opened, opened, currentDir⟩
    | some false => .ok ⟨-1, opened, opened, currentDir⟩
    | some true =>
      let path := opened.close below
      .ok ⟨0, opened, path, currentDir.copyString path.bytes (strlen path.bytes + 1)⟩

end PathBuffer

inductive PathCall
  | getAbsolutePath (path junk : ByteMem)
  | calAbsolute (path junk : ByteMem)
  | mkdirat (dirfd : DirFd) (path junk : ByteMem)
  | chdir (handle : Bool) (opens : List UInt8 → Option Bool) (below : UInt8) (path junk : ByteMem)

/-- The array holds a string shorter than `MAXPATH`. -/
def ShortPath (b : ByteMem) : Prop := ∃ path, Spells b path ∧ path.length < maxPath

/-- Nothing was stored behind the array, and it holds the string with its terminator. -/
structure Fits (b : PathBuffer) (path : List UInt8) : Prop where
  extent : b.extent ≤ maxPath
  spells : Spells b.bytes path
  short : path.length < maxPath

def dropDot (path : List UInt8) : List UInt8 :=
  if path.take 2 = [0x2e, slash] then path.drop 2 else path

/-- The path that is meant: an absolute one itself, another one behind the directory. -/
def meantPath (dir path : List UInt8) : List UInt8 :=
  if path.head? = some slash then path else dir ++ dropDot path

namespace PathCall

/-- The paths that are handed to the call are strings shorter than `MAXPATH`. -/
def Valid : PathCall → Prop
  | getAbsolutePath path _ | calAbsolute path _ | chdir _ _ _ path _ => ShortPath path
  | mkdirat (.file fp) path _ => ShortPath fp ∧ ShortPath path
  | mkdirat _ path _ => ShortPath path

/-- The call stores only inside its arrays and `currentDir`, and makes the path that is meant. -/
def Right (curdir : ByteMem) : PathCall → Prop
  | getAbsolutePath path junk =>
    Fits (PathBuffer.getAbsolutePath curdir path (.untouched junk))
      (meantPath (dirPath curdir) (dirPath path))
  | calAbsolute path junk =>
    (PathBuffer.calAbsolute curdir (.untouched path) junk).1.extent ≤ maxPath ∧
      Fits (PathBuffer.calAbsolute curdir (.untouched path) junk).2
        (meantPath (dirPath curdir) (dirPath path))
  | mkdirat dirfd path junk =>
    ∃ b, PathBuffer.mkdirat curdir dirfd path junk = .ok b ∧
      Fits b (meantPath (dirPath (dirfd.base curdir)) (dirPath path))
  | chdir handle opens below path junk =>
    ∃ c, PathBuffer.chdir handle opens below (.untouched curdir) path junk = .ok c ∧
      Fits c.opened (meantPath (dirPath curdir) (dirPath path)) ∧
      c.path.extent ≤ maxPath ∧
      (c.result = 0 → Fits c.currentDir (meantPath (dirPath curdir) (dirPath path)) ∨
        Fits c.currentDir (meantPath (dirPath curdir) (dirPath path) ++ [slash])) ∧
      (c.result ≠ 0 → c.currentDir = .untouched curdir)

/-- `currentDir` after the call. -/
def next (curdir : ByteMem) : PathCall → ByteMem
  | chdir handle opens below path junk =>
    match PathBuffer.chdir handle opens below (.untouched curdir) path junk with
    | .ok c => c.currentDir.bytes
    | .error _ => curdir
  | _ => curdir

/-- The path and the directory together are shorter than `MAXPATH`, and the path is not taken for an
absolute one when its `./` is gone. -/
def Joins (dir path : List UInt8) : Prop :=
  path.head? = some slash ∨
    ((dropDot path).head? = some slash → dir = []) ∧ dir.length + (dropDot path).length < maxPath

/-- The call has room for what it makes. From an open directory a `./` is not taken away. -/
def Roomy (curdir : ByteMem) : PathCall → Prop
  | getAbsolutePath path _ | calAbsolute path _ => Joins (dirPath curdir) (dirPath path)
  | mkdirat .cwd path _ => Joins (dirPath curdir) (dirPath path)
  | mkdirat .closed path _ => (dirPath path).head? = some slash
  | mkdirat (.file fp) path _ =>
    (dirPath path).head? = some slash ∨ dropDot (dirPath path) = dirPath path ∧
      (dirPath fp).length + (dirPath path).length < maxPath
  | chdir handle opens _ path _ =>
    handle = true ∧ Joins (dirPath curdir) (dirPath path) ∧
      (opens (meantPath (dirPath curdir) (dirPath path)) = some true →
        (closePath (meantPath (dirPath curdir) (dirPath path))).length < maxPath)

end PathCall

/-- A property of every call of a sequence, each with the `currentDir` that it finds. -/
def EachCall (P : ByteMem → PathCall → Prop) : ByteMem → List PathCall → Prop
  | _, [] => True
  | curdir, call :: calls => P curdir call ∧ EachCall P (call.next curdir) calls

/-! ## Strings in arrays -/

variable {A B curdir path junk : ByteMem} {b : PathBuffer} {dir p q : List UInt8} {c : UInt8}

theorem strlen_of_spells (h : Spells A p) (hp : p.length < maxPath) : strlen A = p.length := by
  refine strnlen_of_spells h (hp.le.trans ?_)
  decide

theorem stringAt_of_spells (h : Spells A p) (hp : p.length < maxPath) : stringAt A = p := by
  rw [stringAt, strlen_of_spells h hp]
  refine List.ext_getElem (by simp) fun j h₁ h₂ => ?_
  rw [List.getElem_map, List.getElem_range, h.bytes j h₂.le, List.getD_eq_getElem _ _ h₂]

theorem Spells.unique (h : Spells A p) (hp : p.length < maxPath) (h' : Spells A q)
    (hq : q.length < maxPath) : p = q :=
  (dirPath_of_spells h hp).symm.trans (dirPath_of_spells h' hq)

theorem Spells.dirPath_eq (h : Spells A p) (hp : p.length < maxPath) : dirPath A = p :=
  dirPath_of_spells h hp

theorem Spells.head_iff (h : Spells A p) : A 0 = slash ↔ p.head? = some slash := by
  cases p with
  | nil =>
    have h₀ : A 0 = 0 := h.bytes 0 le_rfl
    rw [h₀]
    decide
  | cons c p =>
    have h₀ : A 0 = c := h.bytes 0 (Nat.zero_le _)
    rw [h₀, List.head?_cons, Option.some.injEq]

theorem Spells.last_iff (h : Spells A p) (hp : p ≠ []) :
    A (p.length - 1) = slash ↔ p.getLast? = some slash := by
  have hlen : p.length - 1 < p.length := Nat.sub_lt (List.length_pos_iff.mpr hp) Nat.one_pos
  rw [h.bytes _ hlen.le, List.getD_eq_getElem _ _ hlen, List.getLast?_eq_getElem?,
    List.getElem?_eq_getElem hlen, Option.some.injEq]

theorem Spells.take_two_iff (h : Spells A p) :
    A 0 = 0x2e ∧ A 1 = slash ↔ p.take 2 = [0x2e, slash] := by
  cases p with
  | nil =>
    have h₀ : A 0 = 0 := h.bytes 0 le_rfl
    rw [h₀]
    exact iff_of_false (fun h => absurd h.1 (by decide)) (by simp)
  | cons c p =>
    have h₀ : A 0 = c := h.bytes 0 (Nat.zero_le _)
    cases p with
    | nil =>
      have h₁ : A 1 = 0 := h.bytes 1 le_rfl
      rw [h₁]
      exact iff_of_false (fun h => absurd h.2 (by decide)) (by simp)
    | cons d p =>
      have h₁ : A 1 = d := h.bytes 1 (by simp)
      rw [h₀, h₁]
      simp

theorem spells_dropDot (h : Spells A p) :
    Spells (if A 0 = 0x2e ∧ A 1 = slash then fun i => A (i + 2) else A) (dropDot p) := by
  unfold dropDot
  by_cases hdot : p.take 2 = [0x2e, slash]
  · rw [if_pos (h.take_two_iff.mpr hdot), if_pos hdot]
    obtain ⟨c, d, r, rfl⟩ : ∃ c d r, p = c :: d :: r := by
      match p with
      | [] => cases hdot
      | [c] => cases hdot
      | c :: d :: r => exact ⟨c, d, r, rfl⟩
    exact h.tail.tail
  · rw [if_neg (mt h.take_two_iff.mp hdot), if_neg hdot]
    exact h

theorem dropDot_suffix (p : List UInt8) : dropDot p <:+ p := by
  unfold dropDot
  split
  · exact List.drop_suffix 2 p
  · exact List.suffix_rfl

theorem length_dropDot_le (p : List UInt8) : (dropDot p).length ≤ p.length :=
  (dropDot_suffix p).length_le

theorem dropDot_of_head (h : p.head? = some slash) : dropDot p = p := by
  unfold dropDot
  rw [if_neg]
  cases p with
  | nil => cases h
  | cons c p =>
    cases h
    intro hdot
    cases p with
    | nil => cases hdot
    | cons d p =>
      rw [List.take_succ_cons, List.cons.injEq] at hdot
      exact absurd hdot.1 (by decide)

theorem spells_join (junk : ByteMem) (ha : Spells A p) (hb : Spells B q)
    (hlen : p.length + q.length < maxPath) :
    Spells (((junk.blit 0 maxPath fun _ => 0).blit 0 p.length A).blit p.length q.length B)
      (p ++ q) where
  ne_nul h₀ := (List.mem_append.mp h₀).elim ha.ne_nul hb.ne_nul
  bytes j hj := by
    rw [List.length_append] at hj
    rcases Nat.lt_or_ge j p.length with hp | hp
    · rw [ByteMem.blit_of_not_mem (.inl hp), ByteMem.blit_of_mem (Nat.zero_le j) (by omega),
        Nat.sub_zero, ha.bytes j hp.le, List.getD_append _ _ _ _ hp]
    · rw [List.getD_append_right _ _ _ _ hp]
      rcases Nat.lt_or_ge j (p.length + q.length) with hq | hq
      · rw [ByteMem.blit_of_mem hp hq, hb.bytes _ (by omega)]
      · rw [ByteMem.blit_of_not_mem (.inr hq), ByteMem.blit_of_not_mem (by omega),
          ByteMem.blit_of_mem (Nat.zero_le j) (by omega), List.getD_eq_default _ _ (by omega)]

theorem spells_concat (h : Spells A p) (hc : c ≠ 0) :
    Spells ((A.blit p.length 1 fun _ => c).blit (p.length + 1) 1 fun _ => 0) (p ++ [c]) where
  ne_nul h₀ := by
    rw [List.mem_append, List.mem_singleton] at h₀
    exact h₀.elim h.ne_nul fun h₀ => hc h₀.symm
  bytes j hj := by
    rw [List.length_append, List.length_singleton] at hj
    rcases Nat.lt_or_ge j p.length with hp | hp
    · rw [ByteMem.blit_of_not_mem (by omega), ByteMem.blit_of_not_mem (.inl hp), h.bytes j hp.le,
        List.getD_append _ _ _ _ hp]
    · rw [List.getD_append_right _ _ _ _ hp]
      rcases Nat.eq_or_lt_of_le hp with rfl | hlt
      · rw [ByteMem.blit_of_not_mem (by omega), ByteMem.blit_of_mem le_rfl (by omega), Nat.sub_self]
        rfl
      · obtain rfl : j = p.length + 1 := by omega
        rw [ByteMem.blit_of_mem le_rfl (by omega), Nat.add_sub_cancel_left]
        rfl

namespace PathBuffer

@[simp] theorem untouched_bytes (m : ByteMem) : (untouched m).bytes = m := rfl

theorem extent_put_le {off n m : ℕ} {f : ℕ → UInt8} (hb : b.extent ≤ m) (hn : off + n ≤ m) :
    (b.put off n f).extent ≤ m := by
  unfold put
  dsimp only
  split
  · exact hb
  · exact max_le hb hn

theorem extent_put_of_pos {off n : ℕ} {f : ℕ → UInt8} (hn : 0 < n) :
    off + n ≤ (b.put off n f).extent := by
  unfold put
  dsimp only
  rw [if_neg hn.ne']
  exact le_max_right _ _

theorem extent_clear_le (hb : b.extent ≤ maxPath) : b.clear.extent ≤ maxPath :=
  extent_put_le hb (by omega)

theorem fits_join (hb : b.extent ≤ maxPath) (ha : Spells A p) (hB : Spells B q)
    (hlen : p.length + q.length < maxPath) :
    Fits ((b.clear.put 0 p.length A).put p.length q.length B) (p ++ q) where
  extent := by
    exact extent_put_le (extent_put_le (extent_clear_le hb) (by omega)) hlen.le
  spells := spells_join b.bytes ha hB hlen
  short := by rwa [List.length_append]

theorem fits_put (hb : b.extent ≤ maxPath) (ha : Spells A p) (hlen : p.length < maxPath) :
    Fits (b.clear.put 0 p.length A) p := by
  have h := fits_join hb ha (spells_cstring List.not_mem_nil) hlen
  rw [List.append_nil, List.length_nil, put, ByteMem.blit_zero, if_pos rfl] at h
  exact h

theorem fits_getAbsolutePath (hdir : Spells curdir dir) (hd : dir.length < maxPath)
    (hpath : Spells path p) (hp : p.length < maxPath) (hb : b.extent ≤ maxPath) :
    ((dropDot p).head? = some slash → Fits (getAbsolutePath curdir path b) (dropDot p)) ∧
      ((dropDot p).head? ≠ some slash → dir.length + (dropDot p).length < maxPath →
        Fits (getAbsolutePath curdir path b) (dir ++ dropDot p)) := by
  have hold := spells_dropDot hpath
  have hlen := (length_dropDot_le p).trans_lt hp
  unfold getAbsolutePath
  dsimp only
  constructor
  · intro hhead
    rw [if_pos (hold.head_iff.mpr hhead), strlen_of_spells hold hlen]
    exact fits_put hb hold hlen
  · intro hhead hroom
    rw [if_neg (mt hold.head_iff.mp hhead), strlen_of_spells hold hlen, strlen_of_spells hdir hd]
    exact fits_join hb hdir hold hroom

/-- `getAbsolutePath` makes the path that is meant in its array exactly when the two parts join. -/
theorem fits_getAbsolutePath_iff (hdir : Spells curdir dir) (hd : dir.length < maxPath)
    (hpath : Spells path p) (hp : p.length < maxPath) (hb : b.extent ≤ maxPath) :
    Fits (getAbsolutePath curdir path b) (meantPath dir p) ↔ PathCall.Joins dir p := by
  obtain ⟨habs, hrel⟩ := fits_getAbsolutePath hdir hd hpath hp hb
  unfold meantPath PathCall.Joins
  by_cases hhead : p.head? = some slash
  · rw [if_pos hhead]
    rw [dropDot_of_head hhead] at habs
    exact iff_of_true (habs hhead) (.inl hhead)
  · rw [if_neg hhead]
    constructor
    · intro h
      have hshort := h.short
      rw [List.length_append] at hshort
      refine .inr ⟨fun hq => ?_, hshort⟩
      have heq := h.spells.unique h.short (habs hq).spells (habs hq).short
      exact List.append_left_eq_self.mp heq
    · rintro (hh | ⟨hnil, hroom⟩)
      · exact absurd hh hhead
      · by_cases hq : (dropDot p).head? = some slash
        · rw [hnil hq]
          exact habs hq
        · exact hrel hq hroom

theorem dropDot_of_spells_put (hq : Spells B q)
    (h : Spells (b.put p.length q.length B).bytes (p ++ dropDot q)) : dropDot q = q := by
  by_contra hne
  have hlen : (dropDot q).length < q.length := by
    refine lt_of_le_of_ne (length_dropDot_le q) fun heq => hne ?_
    exact (List.IsSuffix.eq_of_length (dropDot_suffix q) heq)
  have hend := h.length_eq_zero
  change b.bytes.blit p.length q.length B _ = 0 at hend
  rw [List.length_append, ByteMem.blit_of_mem (Nat.le_add_right _ _) (by omega),
    Nat.add_sub_cancel_left] at hend
  exact hq.ne_zero hlen hend

theorem close_cases {below : UInt8} (h : Fits b p) :
    (b.close below = b ∧ (closePath p).length < maxPath) ∨
      (b.close below = (b.put p.length 1 fun _ => slash).put (p.length + 1) 1 (fun _ => 0) ∧
        closePath p = p ++ [slash]) := by
  rw [close, strlen_of_spells h.spells h.short]
  by_cases hnil : p = []
  · subst hnil
    by_cases hlast : below = slash
    · refine .inl ⟨if_neg (not_not.mpr hlast), ?_⟩
      decide
    · exact .inr ⟨if_pos hlast, rfl⟩
  · have hlen : p.length ≠ 0 := mt List.length_eq_zero_iff.mp hnil
    have hiff := h.spells.last_iff hnil
    rw [if_neg hlen]
    by_cases hlast : p.getLast? = some slash
    · refine .inl ⟨if_neg (not_not.mpr (hiff.mpr hlast)), ?_⟩
      rw [closePath, if_pos hlast]
      exact h.short
    · exact .inr ⟨if_pos (mt hiff.mp hlast), if_neg hlast⟩

theorem extent_close_iff {below : UInt8} (h : Fits b p) :
    (b.close below).extent ≤ maxPath ↔ (closePath p).length < maxPath := by
  rcases close_cases h with ⟨hb, hshort⟩ | ⟨hb, hclose⟩
  · rw [hb]
    exact iff_of_true h.extent hshort
  · rw [hb, hclose, List.length_append, List.length_singleton]
    constructor
    · exact (extent_put_of_pos Nat.one_pos).trans
    · intro hroom
      exact extent_put_le (extent_put_le h.extent hroom.le) hroom

theorem fits_close {below : UInt8} (h : Fits b p) (hroom : (closePath p).length < maxPath) :
    Fits (b.close below) p ∨ Fits (b.close below) (p ++ [slash]) := by
  have hext : (b.close below).extent ≤ maxPath := (extent_close_iff h).mpr hroom
  rcases close_cases h with ⟨hb, -⟩ | ⟨hb, hclose⟩
  · rw [hb]
    exact .inl h
  · rw [hclose] at hroom
    refine .inr ⟨hext, ?_, hroom⟩
    rw [hb]
    exact spells_concat h.spells (by decide)

theorem fits_copyString {cur : PathBuffer} (hcur : cur.extent ≤ maxPath) (h : Fits b p) :
    Fits (cur.copyString b.bytes (strlen b.bytes + 1)) p := by
  have hlen : strnlen b.bytes (p.length + 1 - 1) = p.length := strnlen_of_spells h.spells le_rfl
  rw [strlen_of_spells h.spells h.short]
  refine ⟨?_, spells_safestrcpy h.spells, h.short⟩
  rw [copyString, hlen, Nat.add_sub_cancel, if_neg (lt_irrefl _)]
  exact max_le hcur h.short

theorem opened_of_chdir {handle : Bool} {opens : List UInt8 → Option Bool} {below : UInt8}
    {cur : PathBuffer} {c : Chdir} (h : chdir handle opens below cur path junk = .ok c) :
    c.opened = getAbsolutePath cur.bytes path (untouched junk).clear := by
  unfold chdir at h
  split at h
  · cases h
  dsimp only at h
  split at h <;> cases h <;> rfl

end PathBuffer

namespace PathCall

open PathBuffer

theorem right_calAbsolute_iff (hdir : Spells curdir dir) (hd : dir.length < maxPath)
    (hpath : Spells path p) (hp : p.length < maxPath) :
    (calAbsolute path junk).Right curdir ↔ Joins dir p := by
  have hiff := fits_getAbsolutePath_iff hdir hd hpath hp (b := .untouched junk) (Nat.zero_le _)
  rw [← hiff]
  rw [Right, PathBuffer.calAbsolute, hdir.dirPath_eq hd, hpath.dirPath_eq hp]
  dsimp only [PathBuffer.untouched]
  have hbytes : ∀ (m : List UInt8) (j : ℕ), m.length < maxPath → j ≤ m.length →
      (PathBuffer.put ⟨path, 0⟩ 0 maxPath
        (PathBuffer.getAbsolutePath curdir path ⟨junk, 0⟩).bytes).bytes j =
          (PathBuffer.getAbsolutePath curdir path ⟨junk, 0⟩).bytes j := by
    intro m j hm hj
    unfold PathBuffer.put
    dsimp only
    rw [ByteMem.blit_of_mem (Nat.zero_le j) (by omega), Nat.sub_zero]
  constructor
  · rintro ⟨hext, h⟩
    exact ⟨hext, ⟨h.spells.ne_nul, fun j hj =>
      (hbytes _ j h.short hj).symm.trans (h.spells.bytes j hj)⟩, h.short⟩
  · intro h
    refine ⟨h.extent, extent_put_le (Nat.zero_le _) le_rfl, ⟨h.spells.ne_nul, fun j hj => ?_⟩,
      h.short⟩
    exact (hbytes _ j h.short hj).trans (h.spells.bytes j hj)

theorem right_mkdirat_iff {dirfd : DirFd} (hdir : ShortPath curdir)
    (hv : (mkdirat dirfd path junk).Valid) :
    (mkdirat dirfd path junk).Right curdir ↔ (mkdirat dirfd path junk).Roomy curdir := by
  obtain ⟨dir, hdir, hd⟩ := hdir
  have hclear : (PathBuffer.untouched junk).clear.extent ≤ maxPath :=
    extent_clear_le (Nat.zero_le maxPath)
  cases dirfd with
  | cwd =>
    obtain ⟨p, hpath, hp⟩ := hv
    have hiff := fits_getAbsolutePath_iff hdir hd hpath hp hclear
    change (∃ b, Except.ok (PathBuffer.getAbsolutePath curdir path _) = Except.ok b ∧
      Fits b (meantPath (dirPath curdir) (dirPath path))) ↔ Joins (dirPath curdir) (dirPath path)
    rw [hdir.dirPath_eq hd, hpath.dirPath_eq hp, ← hiff]
    constructor
    · rintro ⟨b, hb, h⟩
      cases hb
      exact h
    · exact fun h => ⟨_, rfl, h⟩
  | closed =>
    obtain ⟨p, hpath, hp⟩ := hv
    change (∃ b, (if path 0 = slash then Except.ok _ else _) = Except.ok b ∧
      Fits b (meantPath _ (dirPath path))) ↔ (dirPath path).head? = some slash
    rw [hpath.dirPath_eq hp]
    by_cases hhead : p.head? = some slash
    · rw [if_pos (hpath.head_iff.mpr hhead), strlen_of_spells hpath hp, meantPath, if_pos hhead]
      exact iff_of_true ⟨_, rfl, fits_put (Nat.zero_le _) hpath hp⟩ hhead
    · rw [if_neg (mt hpath.head_iff.mp hhead)]
      refine iff_of_false ?_ hhead
      rintro ⟨b, hb, -⟩
      cases hb
  | file fp =>
    obtain ⟨⟨q, hfp, hq⟩, p, hpath, hp⟩ := hv
    change (∃ b, (if path 0 = slash then Except.ok _ else Except.ok _) = Except.ok b ∧
      Fits b (meantPath (dirPath fp) (dirPath path))) ↔ ((dirPath path).head? = some slash ∨
        dropDot (dirPath path) = dirPath path ∧ (dirPath fp).length + (dirPath path).length < maxPath)
    rw [hfp.dirPath_eq hq, hpath.dirPath_eq hp, strlen_of_spells hpath hp, strlen_of_spells hfp hq,
      meantPath]
    by_cases hhead : p.head? = some slash
    · rw [if_pos (hpath.head_iff.mpr hhead), if_pos hhead]
      exact iff_of_true ⟨_, rfl, fits_put (Nat.zero_le _) hpath hp⟩ (.inl hhead)
    · rw [if_neg (mt hpath.head_iff.mp hhead), if_neg hhead]
      constructor
      · rintro ⟨b, hb, h⟩
        cases hb
        have hdrop : dropDot p = p := dropDot_of_spells_put hpath h.spells
        have hshort := h.short
        rw [List.length_append, hdrop] at hshort
        exact .inr ⟨hdrop, hshort⟩
      · intro h
        obtain ⟨hdrop, hroom⟩ := h.resolve_left hhead
        rw [hdrop]
        exact ⟨_, rfl, fits_join (Nat.zero_le _) hfp hpath hroom⟩

theorem right_chdir_iff {handle : Bool} {opens : List UInt8 → Option Bool} {below : UInt8}
    (hdir : ShortPath curdir) (hpath : ShortPath path) :
    (chdir handle opens below path junk).Right curdir ↔
      (chdir handle opens below path junk).Roomy curdir := by
  obtain ⟨dir, hdir, hd⟩ := hdir
  obtain ⟨p, hpath, hp⟩ := hpath
  have hclear : (PathBuffer.untouched junk).clear.extent ≤ maxPath :=
    extent_clear_le (Nat.zero_le maxPath)
  have hiff := fits_getAbsolutePath_iff hdir hd hpath hp hclear
  rw [Right, Roomy, hdir.dirPath_eq hd, hpath.dirPath_eq hp, ← hiff]
  cases handle with
  | false =>
    refine iff_of_false ?_ (fun h => Bool.noConfusion h.1)
    rintro ⟨c, hc, -⟩
    cases hc
  | true =>
    by_cases hfit : Fits (PathBuffer.getAbsolutePath curdir path (PathBuffer.untouched junk).clear)
        (meantPath dir p)
    · have hopened := stringAt_of_spells hfit.spells hfit.short
      have hneg : (-1 : ℤ) ≠ 0 := by decide
      have hcur : (PathBuffer.untouched curdir).extent ≤ maxPath := Nat.zero_le maxPath
      rw [PathBuffer.chdir, if_neg Bool.noConfusion]
      dsimp only
      rw [untouched_bytes, hopened]
      cases hopen : opens (meantPath dir p) with
      | none =>
        refine iff_of_true ⟨_, rfl, hfit, hfit.extent, fun h => ?_, fun _ => rfl⟩ ⟨rfl, hfit, ?_⟩
        · exact absurd h hneg
        · exact fun h => absurd h (by decide)
      | some d =>
        cases d with
        | false =>
          refine iff_of_true ⟨_, rfl, hfit, hfit.extent, fun h => ?_, fun _ => rfl⟩ ⟨rfl, hfit, ?_⟩
          · exact absurd h hneg
          · exact fun h => absurd h (by decide)
        | true =>
          have hclose : ((PathBuffer.getAbsolutePath curdir path
              (PathBuffer.untouched junk).clear).close below).extent ≤ maxPath ↔ _ :=
            extent_close_iff hfit
          constructor
          · rintro ⟨c, hc, -, hext, -⟩
            cases hc
            exact ⟨rfl, hfit, fun _ => hclose.mp hext⟩
          · rintro ⟨-, -, hroom⟩
            refine ⟨_, rfl, hfit, hclose.mpr (hroom rfl), fun _ => ?_, ?_⟩
            · exact (fits_close hfit (hroom rfl)).imp (fits_copyString hcur) (fits_copyString hcur)
            · exact fun h => absurd rfl h
    · refine iff_of_false ?_ (fun h => hfit h.2.1)
      rintro ⟨c, hc, hopened, -⟩
      rw [opened_of_chdir hc] at hopened
      exact hfit hopened

theorem right_iff {call : PathCall} (h : ShortPath curdir) (hv : call.Valid) :
    call.Right curdir ↔ call.Roomy curdir := by
  cases call with
  | getAbsolutePath path junk =>
    obtain ⟨dir, hdir, hd⟩ := h
    obtain ⟨p, hpath, hp⟩ := hv
    rw [Right, Roomy, hdir.dirPath_eq hd, hpath.dirPath_eq hp]
    exact fits_getAbsolutePath_iff hdir hd hpath hp (Nat.zero_le _)
  | calAbsolute path junk =>
    obtain ⟨dir, hdir, hd⟩ := h
    obtain ⟨p, hpath, hp⟩ := hv
    rw [Roomy, hdir.dirPath_eq hd, hpath.dirPath_eq hp]
    exact right_calAbsolute_iff hdir hd hpath hp
  | mkdirat dirfd path junk => exact right_mkdirat_iff h hv
  | chdir handle opens below path junk => exact right_chdir_iff h hv

theorem shortPath_next {call : PathCall} (h : ShortPath curdir) (hr : call.Right curdir) :
    ShortPath (call.next curdir) := by
  cases call with
  | getAbsolutePath | calAbsolute | mkdirat => exact h
  | chdir handle opens below path junk =>
    obtain ⟨c, hc, -, -, hok, hno⟩ := hr
    rw [next, hc]
    dsimp only
    by_cases hres : c.result = 0
    · rcases hok hres with hfit | hfit
      · exact ⟨_, hfit.spells, hfit.short⟩
      · exact ⟨_, hfit.spells, hfit.short⟩
    · rw [hno hres]
      exact h

/-- In a sequence of calls that starts with a short `currentDir` every call does what it should
exactly when every call has room. -/
theorem eachCall_right_iff {calls : List PathCall} (h : ShortPath curdir)
    (hv : ∀ call ∈ calls, call.Valid) :
    EachCall Right curdir calls ↔ EachCall Roomy curdir calls := by
  induction calls generalizing curdir with
  | nil => exact Iff.rfl
  | cons call calls ih =>
    have hcall := right_iff h (hv call List.mem_cons_self)
    have hrest : call.Right curdir →
        (EachCall Right (call.next curdir) calls ↔ EachCall Roomy (call.next curdir) calls) :=
      fun hr => ih (shortPath_next h hr) fun c hc => hv c (List.mem_cons_of_mem call hc)
    constructor
    · rintro ⟨hr, hrs⟩
      exact ⟨hcall.mp hr, (hrest hr).mp hrs⟩
    · rintro ⟨hr, hrs⟩
      exact ⟨hcall.mpr hr, (hrest (hcall.mpr hr)).mpr hrs⟩

theorem shortPath_cstring (h₀ : 0 ∉ p) (hp : p.length < maxPath) :
    ShortPath (BinProgram.cstring p) := ⟨p, spells_cstring h₀, hp⟩

theorem eachCall_right_iff_root :
    EachCall Right (BinProgram.cstring [slash])
      [getAbsolutePath (BinProgram.cstring [0x2e, slash, 0x6c, 0x73]) (fun _ => 7),
        chdir true (fun _ => some true) slash (BinProgram.cstring [0x62, 0x69, 0x6e]) fun _ => 7] := by
  refine (eachCall_right_iff (shortPath_cstring (by decide) (by decide)) ?_).mpr ?_
  · intro call hcall
    rcases List.mem_pair.mp hcall with rfl | rfl
    · exact shortPath_cstring (by decide) (by decide)
    · exact shortPath_cstring (by decide) (by decide)
  · have hroot : dirPath (BinProgram.cstring [slash]) = [slash] := by decide
    have hls : dirPath (BinProgram.cstring [0x2e, slash, 0x6c, 0x73]) =
        [0x2e, slash, 0x6c, 0x73] := by
      decide
    have hbin : dirPath (BinProgram.cstring [0x62, 0x69, 0x6e]) = [0x62, 0x69, 0x6e] := by decide
    change Joins _ _ ∧ (true = true ∧ Joins _ _ ∧ (_ → _)) ∧ True
    rw [hroot, hls, hbin]
    unfold Joins
    decide

/-- The directory `/usr/` and a path of 60 bytes do not go into one array. -/
theorem getAbsolutePath_overruns :
    ¬ ∀ (curdir : ByteMem) (calls : List PathCall), ShortPath curdir →
      (∀ call ∈ calls, call.Valid) → EachCall Right curdir calls := by
  intro h
  have hdir : Spells (BinProgram.cstring [slash, 0x75, 0x73, 0x72, slash]) _ :=
    spells_cstring (by decide)
  have hpath : Spells (BinProgram.cstring (List.replicate 60 0x61)) _ := spells_cstring (by decide)
  have hv : (getAbsolutePath (BinProgram.cstring (List.replicate 60 0x61)) fun _ => 0).Valid :=
    ⟨_, hpath, by decide⟩
  have hright := (h _ [_] ⟨_, hdir, by decide⟩ fun call hcall => List.mem_singleton.mp hcall ▸ hv).1
  have hroomy := (right_iff ⟨_, hdir, by decide⟩ hv).mp hright
  rw [Roomy, hdir.dirPath_eq (by decide), hpath.dirPath_eq (by decide)] at hroomy
  rcases hroomy with hhead | ⟨-, hroom⟩
  · exact absurd hhead (by decide)
  · exact absurd hroom (by decide)

end PathCall

end StartOS
