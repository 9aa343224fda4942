import StartOS.Fs.DirWrite
import StartOS.Fs.FatBmap

/-! # Removing a name from a directory

`Unlink` takes the first file with a long name that begins with the name it is given. When no inode of
that file is in memory it marks the entries of the file as deleted and gives its clusters back; all else
stays as it is.
-/

namespace StartOS

open Hoare

def erase (e : ByteMem) : ByteMem := e.fill 0 1 0xe5

namespace Fat32FileSystem

open Linked BufferLayer

variable {s s' : Fat32FileSystem} {r : InodeRef} {ip : Inode} {l : List ℕ}
  {items pre post : List Item}
  {mark : ByteMem} {rest : List ByteMem} {name : CString} {tmp : ByteMem} {w : List UInt8} {it : Item}
  {f : FileEntry}

section Scan

theorem strncmp_eq_zero_iff {p q : ByteMem} {n : ℕ} (h : ∀ i < n, p i ≠ 0) :
    strncmp p q n = 0 ↔ ∀ i < n, p i = q i := by
  induction n generalizing p q with
  | zero => exact iff_of_true rfl fun i hi => absurd hi (Nat.not_lt_zero i)
  | succ n ih =>
    have hrest := ih (p := fun i => p (i + 1)) (q := fun i => q (i + 1)) fun i hi =>
      h (i + 1) (Nat.succ_lt_succ hi)
    rw [strncmp]
    split
    · rename_i hand
      rw [hrest]
      constructor
      · rintro hall (_ | i) hi
        · exact hand.2
        · exact hall i (Nat.lt_of_succ_lt_succ hi)
      · exact fun hall i hi => hall (i + 1) (Nat.succ_lt_succ hi)
    · rename_i hand
      have hne : p 0 ≠ q 0 := fun heq => hand ⟨h 0 n.succ_pos, heq⟩
      refine iff_of_false (fun hz => hne ?_) fun hall => hne (hall 0 n.succ_pos)
      rw [sub_eq_zero, Nat.cast_inj, UInt8.toNat_inj] at hz
      exact hz

/-- A file that `Unlink` takes for `name`: its long name begins so. -/
def Item.TakenBy (name : CString) : Item → Prop
  | deleted _ _ => False
  | file f => f.longs ≠ [] ∧ name.chars <+: untilNul f.bytes

/-- `Unlink` leaves `tmp_name` as it is at a deleted entry and at a file without a long name. -/
def Item.Passed : Item → Prop
  | deleted _ _ => True
  | file f => f.longs = []

/-- A name that can be removed: no stored name is copied past the end of `tmp_name`, and what is left
there of an earlier name does not decide. -/
structure Removable (name : CString) (junk : ByteMem) (items : List Item) : Prop where
  fits : ∀ it ∈ items, ¬it.TooLong
  decided : ∀ f, .file f ∈ items → f.longs ≠ [] → Decided name f.bytes
  fresh : ∀ it, items.head? = some it → it.Passed → strncmp name.bytes junk name.strlen ≠ 0

theorem strncmp_overlay (hd : Decided name w) :
    strncmp name.bytes (overlay tmp w) name.strlen = 0 ↔ name.chars <+: untilNul w := by
  have hd' : 0 ∈ w ∨ name.strlen ≤ w.length ∨ ¬w.map id <+: name.chars.map id := by
    refine hd.imp_right (Or.imp_right (mt fun hpre => ?_))
    rw [List.map_id, List.map_id] at hpre
    exact hpre.map toLowCase
  have hagree : (∀ i < name.strlen, id (name.bytes i) = id (overlay tmp w i)) ↔
      name.chars.map id <+: (untilNul w).map id := overlay_agrees_iff (fun _ => Iff.rfl) hd'
  rw [List.map_id, List.map_id] at hagree
  exact (strncmp_eq_zero_iff name.ne_nul).trans hagree

theorem unlinkScan_ends (h : DirAtRest s r l) (hl : dirEntries s l = layout items ++ mark :: rest)
    (hm : mark 0 = 0) (hs : Removable name s.junk items) :
    ScanEnds (Stays s r l) (Item.TakenBy name) items 0
      (unlinkScan (readEntry r) name scanFuel s.junk s) := by
  have hg : Gives (Stays s r l) (readEntry r) 0 (layout items ++ mark :: rest) :=
    hl ▸ gives_dirEntries s r l
  refine scanLoop_items (Q := Item.Passed) s.junk 0 hg hm (h.length_items_lt hl) h.stays hs.fits
    ?_ ?_ ?_
    fun it hhead hpass => decide_eq_false (hs.fresh it hhead hpass)
  · intro it hit hpass tmp
    cases it with
    | deleted e he => exact absurd trivial hpass
    | file f =>
      have hbytes : f.bytes = f.longs.reverse.flatMap chars := if_neg hpass
      rw [decide_eq_true_iff, Writes, if_neg (show ¬f.longs = [] from hpass), ← hbytes,
        strncmp_overlay (hs.decided f hit hpass)]
      exact (and_iff_right hpass).symm
  · rintro (⟨e, he⟩ | f) hpass tmp
    · exact ite_self tmp
    · exact if_pos hpass
  · rintro (⟨e, he⟩ | f) hpass
    · exact not_false
    · exact fun htaken => htaken.1 hpass

end Scan

section Marks

theorem dirEntries_outside {e : ByteMem} (he : e ∈ dirEntries s l) {x : ℕ} (hx : 32 ≤ x) :
    e x = 0 := by
  rw [dirEntries, entriesFrom, List.mem_map] at he
  obtain ⟨j, -, rfl⟩ := he
  exact if_neg (by omega)

theorem entryBytes_erase {e : ByteMem} (he : e ∈ dirEntries s l) :
    entryBytes (erase e) = erase e := by
  funext x
  rw [entryBytes]
  split
  · rfl
  · rw [erase, ByteMem.fill_of_not_mem (by omega), dirEntries_outside he (by omega)]

/-- `MarkEntryDeleted` marks a run of entries, from the last to the first. -/
theorem DirAtRest.marks {A B C : List ByteMem} {off : ℕ} (h : DirAtRest s r l) (ha : OwnApart s r l)
    (hE : dirEntries s l = A ++ B ++ C) (hoff : B ≠ [] → off + 32 = 32 * (A ++ B).length) :
    ∃ s', markEntryDeleted r B.length off s = .ok ((), s') ∧
      Rewritten s r l l (A ++ B.map erase ++ C) s.entry s' := by
  induction B using List.reverseRecOn generalizing s C off with
  | nil =>
    rw [List.map_nil, ← hE]
    exact ⟨s, rfl, h.stays.rewritten h⟩
  | append_singleton B e ih =>
    have hoff' := hoff (by simp)
    simp only [List.length_append, List.length_singleton] at hoff'
    obtain ⟨ip, hon, -⟩ := h.node
    have hlen := hon.length_le
    have hsize := congrArg List.length hE
    simp only [length_dirEntries, List.length_append, List.length_singleton] at hsize
    obtain rfl : off = 32 * (A ++ B).length := by
      rw [List.length_append]
      omega
    have hk : (A ++ B).length < 128 * l.length := by
      rw [List.length_append]
      omega
    have hE' : dirEntries s l = (A ++ B) ++ e :: C := by
      rw [hE]
      simp only [List.append_assoc, List.singleton_append]
    have hat : (dirEntries s l)[(A ++ B).length]? = some e := by
      rw [hE', List.getElem?_append_right le_rfl, Nat.sub_self]
      rfl
    obtain ⟨s₁, hread, hstay⟩ := h.reads hat
    have hs₁ := hstay.rewritten h (K := l)
    obtain ⟨s₂, hwrite, hs₂⟩ := hs₁.rest.writes (ha.rewritten hs₁) hk (erase e)
    have htrans := hs₁.trans hs₂
    have hmem : e ∈ dirEntries s l := List.mem_of_getElem? hat
    have hset : (dirEntries s₁ l).set (A ++ B).length (entryBytes (erase e)) =
        A ++ B ++ erase e :: C := by
      rw [hs₁.entries, entryBytes_erase hmem, hE', List.set_append_right _ _ le_rfl, Nat.sub_self]
      rfl
    rw [hset, hs₁.table] at htrans
    have hnext : B ≠ [] → (32 * (A ++ B).length + 2 ^ 32 - 32) % 2 ^ 32 + 32 = 32 * (A ++ B).length :=
        fun hne => by
      have hpos := List.length_pos_of_ne_nil hne
      rw [List.length_append] at hk ⊢
      omega
    obtain ⟨s₃, hmarks, hs₃⟩ := ih htrans.rest (ha.rewritten htrans) htrans.entries hnext
    refine ⟨s₃, ?_, ?_⟩
    · rw [List.length_append, List.length_singleton, markEntryDeleted, bind_of_ok hread]
      dsimp only
      rw [← erase, bind_of_ok hwrite, if_neg (not_not.mpr rfl)]
      exact hmarks
    · have hall := htrans.trans hs₃
      rw [htrans.table] at hall
      rwa [List.map_append, List.map_singleton, ← List.append_assoc, List.append_assoc _ [erase e],
        List.singleton_append]

end Marks

section Unlink

theorem erase_mark (e : ByteMem) : erase e 0 = 0xe5 := ByteMem.fill_of_mem le_rfl Nat.one_pos

def FileEntry.deleted (f : FileEntry) : List Item :=
  (Item.file f).entries.map fun e => .deleted (erase e) (erase_mark e)

theorem layout_cons (it : Item) (items : List Item) :
    layout (it :: items) = it.entries ++ layout items :=
  List.flatMap_cons

theorem layout_deleted (f : FileEntry) : layout f.deleted = (Item.file f).entries.map erase := by
  rw [layout, FileEntry.deleted, List.flatMap_map]
  exact List.flatMap_pure_eq_map ..

/-- A file that has clusters, none of them one of its directory. -/
structure FileChain (s : Fat32FileSystem) (l : List ℕ) (f : FileEntry) (lf : List ℕ) : Prop where
  chain : Chain s.entry endOfCluster (getStartCluster f.short) lf
  inCache : ∀ c ∈ lf, s.info.InCache c
  apart : ∀ c ∈ lf, c ∉ l

theorem FileChain.congr {lf : List ℕ} (h : FileChain s l f lf) (hi : s'.info = s.info)
    (ht : s'.entry = s.entry) : FileChain s' l f lf :=
  ⟨ht ▸ h.chain, hi ▸ h.inCache, h.apart⟩

theorem DirAtRest.retabled (h : DirAtRest s r l) {F : ByteMem} (hs' : s' = { s with fatCache := F })
    (hkeep : ∀ c ∈ l, s'.entry c = s.entry c) : Rewritten s r l [] (dirEntries s l) s'.entry s' := by
  subst hs'
  exact h.beside rfl rfl rfl (fun q => by cases q <;> rfl) rfl hkeep (fun _ _ _ _ => rfl)
    fun _ _ _ => rfl

theorem DirAtRest.frees {lf : List ℕ} (h : DirAtRest s r l) (hc : FileChain s l f lf) : ∃ s',
    freeClusterChain (getStartCluster f.short) s = .ok ((), s') ∧
      Rewritten s r l [] (dirEntries s l) (fun c => if c ∈ lf then 0 else s.entry c) s' := by
  have hlen : lf.length ≤ s.info.clusterCount + 1 := by
    have hsub : lf ⊆ List.range (s.info.clusterCount + 1) := fun c hm =>
      List.mem_range.mpr (Nat.lt_succ_of_le (hc.inCache c hm).le_count)
    simpa using (hc.chain.nodup.subperm hsub).length_le
  obtain ⟨s', hok, hst, hentry⟩ := freeFrom_spec h.geometry.toFatGeometry hc.chain hc.inCache
    (n := 2 * s.info.clusterCount + 4) (by omega)
  have hkeep : ∀ c ∈ l, s'.entry c = s.entry c := fun c hm => by
    rw [hentry, if_neg fun hmem => hc.apart c hmem hm]
  rw [← funext hentry]
  refine ⟨s', ?_, h.retabled hst hkeep⟩
  rw [freeClusterChain, get_bind]
  exact hok

/-- Giving back the reference that `GetInode` has taken leaves the inodes as they were. -/
theorem getInode_freeInode {pos : ℕ} {iq : Inode} (hq : s.inodes pos = some iq) (href : 0 < iq.ref) :
    ∃ s', getInode pos s = .ok (some (.pos pos), s') ∧ freeInode (.pos pos) s' = .ok ((), s) := by
  set t := s.setInode (.pos pos) { iq with ref := iq.ref + 1 } with ht
  have hnode : t.inode? (.pos pos) = some { iq with ref := iq.ref + 1 } := by
    rw [ht, inode?_setInode, if_pos rfl]
  have hback : t.setInode (.pos pos) { iq with ref := iq.ref + 1 - 1 } = s := by
    rw [ht, setInode, setInode]
    simp only [Function.update_idem, add_sub_cancel_right]
    rw [← hq, Function.update_eq_self]
  refine ⟨t, ?_, ?_⟩
  · rw [getInode, get_bind]
    simp only [hq]
    rw [dup, updateInodeWith, bind_assoc, bind_assoc, bind_of_ok (inode_eq (r := .pos pos) hq)]
    rfl
  · rw [freeInode, bind_of_ok (inode_eq hnode)]
    dsimp only
    rw [if_neg (by omega), bind_of_ok (updateInodeWith_eq hnode)]
    rw [if_neg (by omega)]
    exact congrArg (fun u => Except.ok ((), u)) hback

theorem DirAtRest.posOf_ne (h : DirAtRest s r l) (ha : OwnApart s r l) {k : ℕ} (hk : 0 < k)
    (hle : 32 * k ≤ 4096 * l.length) : r ≠ .pos (s.posOf l (32 * k)) := by
  intro hr
  obtain ⟨ip, hon, -⟩ := h.node
  have hown := ha ip hon.node
  obtain ⟨hlt, hpos⟩ := h.posOf_eq hk hle
  rw [hown.pos _ hr] at hpos
  exact hown.apart _ (List.getElem_mem hlt) ip.iPos le_rfl (by omega) ⟨by omega, by omega⟩

theorem length_layout_upto {tail : List ByteMem} (hl : dirEntries s l = layout items ++ tail)
    (hsplit : items = pre ++ it :: post) :
    0 < (layout (pre ++ [it])).length ∧ 32 * (layout (pre ++ [it])).length ≤ 4096 * l.length := by
  have hlast := Listed.length_items_le (pre ++ [it])
  have hsize := congrArg List.length hl
  rw [List.length_append, List.length_singleton] at hlast
  rw [length_dirEntries, List.length_append, hsplit, List.append_cons, Listed.layout_append,
    List.length_append] at hsize
  exact ⟨by omega, by omega⟩

/-- How `Unlink` ends: the first file whose long name begins with the name is removed, or its inode is
in memory, or there is none. -/
inductive UnlinkEnds (s : Fat32FileSystem) (r : InodeRef) (l : List ℕ) (items : List Item)
    (tail : List ByteMem) (name : CString) : ℤ → Fat32FileSystem → Prop
  | removed {pre post : List Item} {f : FileEntry} {lf : List ℕ} {s' : Fat32FileSystem}
    (hsplit : items = pre ++ .file f :: post) (htaken : (Item.file f).TakenBy name)
    (hpre : ∀ it ∈ pre, ¬it.TakenBy name) (hlf : FileChain s l f lf)
    (hin : s.inodes (s.posOf l (32 * (layout (pre ++ [.file f])).length)) = none)
    (hw : Rewritten s r l l (layout (pre ++ f.deleted ++ post) ++ tail)
      (fun c => if c ∈ lf then 0 else s.entry c) s') : UnlinkEnds s r l items tail name 0 s'
  | refused {pre post : List Item} {f : FileEntry} {lf : List ℕ} {s' : Fat32FileSystem}
    (hsplit : items = pre ++ .file f :: post) (htaken : (Item.file f).TakenBy name)
    (hpre : ∀ it ∈ pre, ¬it.TakenBy name) (hlf : FileChain s l f lf)
    (hin : s.inodes (s.posOf l (32 * (layout (pre ++ [.file f])).length)) ≠ none)
    (hs : Stays s r l s') : UnlinkEnds s r l items tail name (-1) s'
  | missed {s' : Fat32FileSystem} (hnone : ∀ it ∈ items, ¬it.TakenBy name)
    (hs : Stays s r l s') : UnlinkEnds s r l items tail name 0 s'

theorem DirAtRest.unlink_ends (h : DirAtRest s r l) (ha : OwnApart s r l)
    (hl : dirEntries s l = layout items ++ mark :: rest) (hm : mark 0 = 0)
    (hs : Removable name s.junk items) (hinode : ∀ pos iq, s.inodes pos = some iq → 0 < iq.ref)
    (hc : ∀ f, .file f ∈ items → f.longs ≠ [] → ∃ lf, FileChain s l f lf) :
    ∃ z s', unlink r name s = .ok (z, s') ∧ UnlinkEnds s r l items (mark :: rest) name z s' := by
  have hscan := unlinkScan_ends h hl hm hs
  obtain ⟨ip, hon, hsz⟩ := h.node
  have hfuel : minusOne / 32 + 2 = scanFuel := rfl
  rw [unlink, bind_of_ok (entryFuel_eq hon.node), get_bind, hsz, hfuel]
  generalize hq : unlinkScan (readEntry r) name scanFuel s.junk s = q at hscan
  cases hscan with
  | missed s' hall hs' =>
    refine ⟨0, s', ?_, .missed hall hs'⟩
    rw [bind_of_ok hq]
    rfl
  | found pre post it tmp n s₁ hsplit hP hall hs₁ hn =>
    cases it with
    | deleted e he => exact hP.elim
    | file f =>
      obtain ⟨lf, hlf⟩ := hc f (by rw [hsplit]; simp) hP.1
      have hnum : n = f.longs.length := hn f rfl hP.1
      have hlayout : dirEntries s l =
          layout pre ++ (Item.file f).entries ++ (layout post ++ mark :: rest) := by
        rw [hl, hsplit, Listed.layout_append, layout_cons, List.append_assoc, List.append_assoc,
          List.append_assoc]
      have hpre : layout (pre ++ [Item.file f]) = layout pre ++ (Item.file f).entries := by
        rw [Listed.layout_append, layout_cons, show layout [] = [] from rfl, List.append_nil]
      obtain ⟨hfirst, hle⟩ := length_layout_upto hl hsplit
      obtain ⟨s₂, hpos, hs₂⟩ := hs₁.rest.position
        (g := ⟨0 + 32 * (layout (pre ++ [Item.file f])).length, (Item.file f).last, tmp, n⟩)
        ((Nat.zero_add _).trans_le hle)
      have hstay := hs₁.trans hs₂
      have hsame : s₁.posOf l (0 + 32 * (layout (pre ++ [Item.file f])).length) =
          s.posOf l (32 * (layout (pre ++ [Item.file f])).length) := by
        simp only [posOf, firstSectorOfCluster, hs₁.info, Nat.zero_add]
      rw [hsame] at hpos
      rw [bind_of_ok hq]
      dsimp only
      rw [bind_of_ok hpos]
      have hnone : s₂.inodes (s.posOf l (32 * (layout (pre ++ [Item.file f])).length)) =
          s.inodes (s.posOf l (32 * (layout (pre ++ [Item.file f])).length)) :=
        hstay.inodes_eq (h.posOf_ne ha hfirst hle)
      cases hin : s.inodes (s.posOf l (32 * (layout (pre ++ [Item.file f])).length)) with
      | some iq =>
        rw [hin] at hnone
        obtain ⟨s₃, hget, hfree⟩ := getInode_freeInode hnone (hinode _ _ hin)
        have hne : s.inodes (s.posOf l (32 * (layout (pre ++ [Item.file f])).length)) ≠ none :=
          hin ▸ Option.some_ne_none iq
        refine ⟨-1, s₂, ?_, .refused hsplit hP hall hlf hne hstay⟩
        rw [bind_of_ok hget]
        dsimp only
        rw [bind_of_ok hfree]
        rfl
      | none =>
        rw [hin] at hnone
        have hget : getInode (s.posOf l (32 * (layout (pre ++ [Item.file f])).length)) s₂ =
            .ok (none, s₂) := by
          rw [getInode, get_bind]
          simp only [hnone]
          rfl
        have hst := hstay.rewritten h (K := l)
        rw [hlayout] at hst
        have hoff : (Item.file f).entries ≠ [] →
          0 + 32 * (layout (pre ++ [Item.file f])).length - 32 + 32 =
            32 * (layout pre ++ (Item.file f).entries).length := fun _ => by
          rw [← hpre]
          omega
        obtain ⟨s₃, hmark, hs₃⟩ := hst.rest.marks (ha.rewritten hst) hst.entries hoff
        have hs₃' := hst.trans hs₃
        rw [hst.table] at hs₃'
        have hlf' : FileChain s₃ l f lf := hlf.congr hs₃'.info hs₃'.table
        obtain ⟨s₄, hfree, hs₄⟩ := hs₃'.rest.frees hlf'
        have hs₄' := hs₃'.trans (hs₄.mono (List.nil_subset l))
        rw [hs₃'.entries, hs₃'.table] at hs₄'
        refine ⟨0, s₄, ?_, .removed hsplit hP hall hlf hin ?_⟩
        · have hlast : (Item.file f).entries.length = n + 1 := by
            rw [hnum, Item.entries, List.length_append, List.length_singleton]
          rw [hlast] at hmark
          rw [bind_of_ok hget]
          dsimp only
          rw [bind_of_ok hmark, Item.last, bind_of_ok hfree]
          rfl
        · rwa [Listed.layout_append, Listed.layout_append, layout_deleted, List.append_assoc]

/-- `Unlink` removes the first file whose long name begins with the name, unless its inode is in
memory. It marks the entries of that file, gives its clusters back and leaves all else as it is. -/
theorem unlink_removes_first (h : DirAtRest s r l) (ha : OwnApart s r l)
    (hl : dirEntries s l = layout items ++ mark :: rest) (hm : mark 0 = 0)
    (hs : Removable name s.junk items) (hinode : ∀ pos iq, s.inodes pos = some iq → 0 < iq.ref)
    (hc : ∀ f, .file f ∈ items → f.longs ≠ [] → ∃ lf, FileChain s l f lf) :
    (∃ pre f post lf, items = pre ++ .file f :: post ∧ (Item.file f).TakenBy name ∧
      (∀ it ∈ pre, ¬it.TakenBy name) ∧ FileChain s l f lf ∧ ∃ s',
        (s.inodes (s.posOf l (32 * (layout (pre ++ [.file f])).length)) = none ∧
          unlink r name s = .ok (0, s') ∧
          Rewritten s r l l (layout (pre ++ f.deleted ++ post) ++ mark :: rest)
            (fun c => if c ∈ lf then 0 else s.entry c) s') ∨
        (s.inodes (s.posOf l (32 * (layout (pre ++ [.file f])).length)) ≠ none ∧
          unlink r name s = .ok (-1, s') ∧ Stays s r l s')) ∨
      (∀ it ∈ items, ¬it.TakenBy name) ∧ ∃ s', unlink r name s = .ok (0, s') ∧ Stays s r l s' := by
  obtain ⟨z, s', hok, hends⟩ := h.unlink_ends ha hl hm hs hinode hc
  cases hends with
  | removed hsplit htaken hpre hlf hin hw =>
    exact .inl ⟨_, _, _, _, hsplit, htaken, hpre, hlf, s', .inl ⟨hin, hok, hw⟩⟩
  | refused hsplit htaken hpre hlf hin hs =>
    exact .inl ⟨_, _, _, _, hsplit, htaken, hpre, hlf, s', .inr ⟨hin, hok, hs⟩⟩
  | missed hnone hs => exact .inr ⟨hnone, s', hok, hs⟩

/-- A volume with a directory in cluster 2, in it the file `a`, which has a long name and cluster 5. The
entry of the directory is in the root directory. -/
def subVolume : Fat32FileSystem := { smallVolume with
  disk := ((ByteMem.blit (fun _ => 0) 51200 32 (longEntry plainA 0 1 1)).fill 51232 11 0x20)
    |>.fill 51232 1 0x41
    |>.writeLE (51232 + 26) 2 5
  fatCache :=
    (ByteMem.writeLE (fun _ => 0) 8 4 endOfCluster)
    |>.writeLE 16 4 endOfCluster
    |>.writeLE 20 4 endOfCluster
  inodes := fun p => if p = 59392 then some (freshInode 2 59392 minusOne) else none }

theorem onChain_subVolume : subVolume.OnChain (.pos 59392) (freshInode 2 59392 minusOne) [2] := by
  have hlast : subVolume.entry 2 = endOfCluster := by decide +kernel
  refine ⟨rfl, ⟨?_, ?_, ?_, ?_, ?_⟩, .inl rfl, by decide⟩
  · rintro a rfl
    exact ⟨rfl, by decide, hlast⟩
  · rintro a rfl
    decide
  · rintro a rfl c hc
    rw [List.mem_singleton] at hc
    omega
  · rintro a rfl c hc
    rw [List.mem_singleton] at hc
    exact hc ▸ inCache_smallVolume (by norm_num)
  · rintro a rfl b rfl hne
    exact absurd rfl hne

theorem dirAtRest_subVolume : DirAtRest subVolume (.pos 59392) [2] where
  geometry := ⟨⟨rfl, by decide, by decide⟩, rfl, rfl⟩
  range c hc := by
    rw [List.mem_singleton] at hc
    subst hc
    exact ⟨le_rfl, by decide⟩
  idle := ⟨fun _ _ => rfl, fun _ _ => rfl, fun _ _ _ _ _ hne => absurd rfl hne⟩
  matches' := ⟨rfl, rfl⟩
  node := ⟨_, onChain_subVolume, rfl⟩
  coherent _ _ _ hi := by cases hi.valid

theorem ownApart_subVolume : OwnApart subVolume (.pos 59392) [2] := by
  intro ip hip
  rw [onChain_subVolume.node, Option.some.injEq] at hip
  subst hip
  refine ⟨fun q hq => (InodeRef.pos.inj hq).symm, by decide, by decide, fun c hc x hle hlt hin => ?_⟩
  rw [List.mem_singleton] at hc
  subst hc
  have hend : x < 51200 + 4096 := hin.2
  have hpos : 59392 ≤ x := hle
  omega

def fileA : FileEntry where
  longs := [fun x => if x < 32 then fileByte subVolume [2] (32 * 0 + x) else 0]
  short := fun x => if x < 32 then fileByte subVolume [2] (32 * 1 + x) else 0
  long_attrib := by decide +kernel
  sequence := by decide +kernel
  length_le := by decide
  short_attrib := by decide +kernel
  not_deleted := by decide +kernel
  not_mark := by decide +kernel

theorem dirEntries_subVolume : ∃ mark rest, mark 0 = 0 ∧
    dirEntries subVolume [2] = layout [.file fileA] ++ mark :: rest :=
  ⟨fun x => if x < 32 then fileByte subVolume [2] (32 * 2 + x) else 0,
    entriesFrom (fileByte subVolume [2]) 3 125, by decide +kernel, rfl⟩

theorem takenBy_fileA : (Item.file fileA).TakenBy plainA := by
  refine ⟨List.cons_ne_nil _ _, ?_⟩
  decide +kernel

theorem fileChain_fileA : FileChain subVolume [2] fileA [5] where
  chain := by
    have hlast : subVolume.entry 5 = endOfCluster := by decide +kernel
    exact ⟨by decide +kernel, by decide, hlast⟩
  inCache c hc := by
    rw [List.mem_singleton] at hc
    exact hc ▸ inCache_smallVolume (by norm_num)
  apart := by decide

theorem removable_subVolume : Removable plainA subVolume.junk [.file fileA] where
  fits it hit := by
    rw [List.mem_singleton.mp hit]
    exact Nat.not_lt.mpr (show 1 ≤ 4 by decide)
  decided f hf _ := by
    rw [List.mem_singleton, Item.file.injEq] at hf
    rw [hf]
    exact .inr (.inl (by decide +kernel))
  fresh it hit hpass := by
    cases hit
    exact absurd hpass (List.cons_ne_nil _ _)

theorem inodes_subVolume {pos : ℕ} {iq : Inode} (h : subVolume.inodes pos = some iq) :
    0 < iq.ref := by
  change (if pos = 59392 then some (freshInode 2 59392 minusOne) else none) = some iq at h
  split at h
  · rw [Option.some.injEq] at h
    subst h
    decide
  · cases h

theorem unlink_removes_first_subVolume :
    ∃ s', unlink (.pos 59392) plainA subVolume = .ok (0, s') ∧ s'.entry 5 = 0 := by
  obtain ⟨mark, rest, hm, hl⟩ := dirEntries_subVolume
  have hchains : ∀ f, .file f ∈ [Item.file fileA] → f.longs ≠ [] →
      ∃ lf, FileChain subVolume [2] f lf :=
      fun f hf _ => by
    rw [List.mem_singleton, Item.file.injEq] at hf
    exact hf ▸ Exists.intro [5] fileChain_fileA
  rcases unlink_removes_first dirAtRest_subVolume ownApart_subVolume hl hm removable_subVolume
    (fun _ _ => inodes_subVolume) hchains with
    ⟨pre, f, post, lf, hsplit, -, -, hlf, s', hcases⟩ | ⟨hnone, -⟩
  · have hpre : pre = [] := by
      cases pre with
      | nil => rfl
      | cons it pre => simp at hsplit
    subst hpre
    rw [List.nil_append, List.cons.injEq, Item.file.injEq] at hsplit
    obtain ⟨rfl, -⟩ := hsplit
    rcases hcases with ⟨-, hok, hs'⟩ | ⟨hin, -, -⟩
    · refine ⟨s', hok, ?_⟩
      have hlist : lf = [5] := chain_unique hlf.chain fileChain_fileA.chain
      rw [hs'.table, hlist]
      rfl
    · exact absurd (by decide +kernel) hin
  · exact absurd takenBy_fileA (hnone _ List.mem_cons_self)

end Unlink

end Fat32FileSystem

end StartOS
