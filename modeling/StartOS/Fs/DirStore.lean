import StartOS.Fs.DirCreate
import StartOS.Lib.NameStore

/-! # A directory as a store of names

A directory keeps a list of names, each with the clusters of its file. `Create` and `Unlink`, called one
after the other, keep the directory well formed and act on the list: no cluster is lost and none is in
two files.
-/

namespace StartOS.Fat32FileSystem

open Linked Hoare
open NameStore (exists_forall₂_append forall₂_imp_of_mem exists_left_of_forall₂
  exists_right_of_forall₂)

variable {s s' : Fat32FileSystem} {r : InodeRef} {l K : List ℕ} {items items' pre post : List Item}
  {tail tail' E : List ByteMem} {T : ℕ → ℕ} {f : FileEntry} {σ σ' : NameStore UInt8 ℕ}

section Parse

theorem files_file (f : FileEntry) (items : List Item) :
    files (.file f :: items) = f :: files items := rfl

theorem mem_files : f ∈ files items ↔ .file f ∈ items := by
  rw [files, List.mem_filterMap]
  constructor
  · rintro ⟨it, hit, heq⟩
    cases it with
    | deleted e he => exact absurd heq (Option.some_ne_none f).symm
    | file f' => exact Option.some.inj heq ▸ hit
  · exact fun hf => ⟨_, hf, rfl⟩

theorem Item.entries_ne_nil (it : Item) : it.entries ≠ [] := by
  cases it with
  | deleted e he => exact List.cons_ne_nil _ _
  | file f =>
    rw [Item.entries]
    simp

theorem Item.not_mark {it : Item} {e : ByteMem} (he : e ∈ it.entries) : e 0 ≠ 0 := by
  cases it with
  | deleted d hd =>
    rw [List.mem_singleton.mp he, hd]
    decide
  | file f => exact fun hz => f.not_free he (.inr hz)

theorem layout_not_mark {e : ByteMem} (he : e ∈ layout items) : e 0 ≠ 0 := by
  obtain ⟨it, -, hit⟩ := List.mem_flatMap.mp he
  exact it.not_mark hit

theorem FileEntry.head_not_free {e : ByteMem} {L L' : List ByteMem}
    (h : (Item.file f).entries ++ L = e :: L') : ¬FreeEntry e := by
  cases hf : (Item.file f).entries with
  | nil => exact absurd hf (Item.entries_ne_nil _)
  | cons x xs =>
    rw [hf] at h
    rw [← (List.cons.inj h).1]
    exact f.not_free (hf ▸ List.mem_cons_self)

/-- The long entries of a file end where its short entry stands. -/
theorem FileEntry.eq_of_entries {f' : FileEntry} {L L' : List ByteMem}
    (h : f.longs ++ f.short :: L = f'.longs ++ f'.short :: L') : f = f' ∧ L = L' := by
  have hboth : f.longs = f'.longs ∧ f.short :: L = f'.short :: L' := by
    rcases List.append_eq_append_iff.mp h with ⟨a, ha, hb⟩ | ⟨a, ha, hb⟩
    · cases a with
      | nil => exact ⟨(ha.trans (List.append_nil _)).symm, hb⟩
      | cons x a =>
        have hmem : f.short ∈ f'.longs := by
          rw [ha, (List.cons.inj hb).1]
          exact List.mem_append_right _ List.mem_cons_self
        exact absurd (f'.long_attrib _ hmem) f.short_attrib
    · cases a with
      | nil => exact ⟨ha.trans (List.append_nil _), hb.symm⟩
      | cons x a =>
        have hmem : f'.short ∈ f.longs := by
          rw [ha, (List.cons.inj hb).1]
          exact List.mem_append_right _ List.mem_cons_self
        exact absurd (f.long_attrib _ hmem) f'.short_attrib
  obtain ⟨hlongs, hcons⟩ := hboth
  obtain ⟨hshort, hrest⟩ := List.cons.inj hcons
  cases f
  cases f'
  obtain rfl := hlongs
  obtain rfl := hshort
  exact ⟨rfl, hrest⟩

theorem layout_injective (h : layout items = layout items') : items = items' := by
  induction items generalizing items' with
  | nil =>
    cases items' with
    | nil => rfl
    | cons it items' =>
      rw [layout_cons] at h
      exact absurd (List.append_eq_nil_iff.mp h.symm).1 it.entries_ne_nil
  | cons it items ih =>
    cases items' with
    | nil =>
      rw [layout_cons] at h
      exact absurd (List.append_eq_nil_iff.mp h).1 it.entries_ne_nil
    | cons it' items' =>
      rw [layout_cons, layout_cons] at h
      cases it with
      | deleted e he =>
        cases it' with
        | deleted e' he' =>
          obtain ⟨rfl, hrest⟩ := List.cons.inj h
          rw [ih hrest]
        | file f => exact absurd (.inl he) (FileEntry.head_not_free h.symm)
      | file f =>
        cases it' with
        | deleted e' he' => exact absurd (.inl he') (FileEntry.head_not_free h)
        | file f' =>
          rw [Item.entries, Item.entries, List.append_assoc, List.append_assoc] at h
          obtain ⟨rfl, hrest⟩ := FileEntry.eq_of_entries h
          rw [ih hrest]

structure Parsed (E : List ByteMem) (items : List Item) (tail : List ByteMem) : Prop where
  entries : E = layout items ++ tail
  marks : ∀ e ∈ tail, e 0 = 0
  ne_nil : tail ≠ []

theorem Parsed.unique (h : Parsed E items tail) (h' : Parsed E items' tail') :
    items = items' ∧ tail = tail' := by
  have hcut : ∀ {its : List Item} {tl : List ByteMem}, Parsed E its tl →
      E.takeWhile (fun e => decide (e 0 ≠ 0)) = layout its := by
    intro its tl hp
    rw [hp.entries, List.takeWhile_append_of_pos fun e he => decide_eq_true (layout_not_mark he)]
    cases tl with
    | nil => exact absurd rfl hp.ne_nil
    | cons e tl =>
      rw [List.takeWhile_cons_of_neg, List.append_nil]
      rw [decide_eq_true_eq, not_not]
      exact hp.marks e List.mem_cons_self
  obtain rfl := layout_injective ((hcut h).symm.trans (hcut h'))
  exact ⟨rfl, List.append_cancel_left (h.entries.symm.trans h'.entries)⟩

end Parse

/-- The files that have a long name; `Unlink` takes no others. -/
def named (items : List Item) : List FileEntry := (files items).filter fun f => f.longs ≠ []

structure Stands (s : Fat32FileSystem) (l : List ℕ) (e : List UInt8 × List ℕ)
    (f : FileEntry) : Prop where
  name : e.1 = untilNul f.bytes
  chain : FileChain s l f e.2

structure Represents (s : Fat32FileSystem) (r : InodeRef) (l : List ℕ)
    (σ : NameStore UInt8 ℕ) : Prop where
  rest : DirAtRest s r l
  apart : OwnApart s r l
  range : ∀ c, 2 ≤ c → s.info.InCache c → s.info.InRange c
  held : ∀ pos ip, s.inodes pos = some ip → 0 < ip.ref
  files : ∃ items tail, Parsed (dirEntries s l) items tail ∧
    List.Forall₂ (Stands s l) σ.files (named items)
  two_le : ∀ c ∈ σ.cells, 2 ≤ c
  free : ∀ c, c ∈ σ.free ↔ s.Free c
  sound : σ.Sound

def Busy (s : Fat32FileSystem) (r : InodeRef) : Prop := ∃ pos, r ≠ .pos pos ∧ s.inodes pos ≠ none

inductive DirCall
  | create (name : CString) (mode : ℕ)
  | unlink (name : CString)

namespace DirCall

def run (r : InodeRef) : DirCall → FsM ℤ
  | create name mode => Fat32FileSystem.create r name mode
  | unlink name => Fat32FileSystem.unlink r name

def Does (busy : Prop) : DirCall → NameStore UInt8 ℕ → ℤ → NameStore UInt8 ℕ → Prop
  | create name _, σ, z, σ' => z = 0 ∧ σ.Creates name.chars σ'
  | unlink name, σ, z, σ' => σ.Unlinks busy name.chars z σ'

/-- What a call asks of the directory. A new name has at most 20 pieces and finds a free cluster and
room before the last end mark; a name that is removed does not meet what is left in `tmp_name`. -/
def Ready (s : Fat32FileSystem) (l : List ℕ) : DirCall → Prop
  | create name _ => 0 < name.strlen ∧ name.strlen ≤ 260 ∧ name.baseLength ≤ 32 ∧
    name.bytes 0 ≠ 0xe5 ∧
    (∃ c, s.Free c) ∧ ∃ items tail, Parsed (dirEntries s l) items tail ∧
      HasRoom (name.lfnNum + 1) (tail.length - 1) 0 items
  | unlink name => ∃ items tail, Parsed (dirEntries s l) items tail ∧ Removable name s.junk items

end DirCall

section Step

theorem named_append (a b : List Item) : named (a ++ b) = named a ++ named b := by
  rw [named, files_append, List.filter_append]
  rfl

theorem named_file (h : f.longs ≠ []) : named (.file f :: items) = f :: named items := by
  rw [named, files_file]
  exact List.filter_cons_of_pos (decide_eq_true h)

theorem named_deleted (f : FileEntry) : named f.deleted = [] := by
  have hnone : ∀ it ∈ f.deleted, it.file? = none := by
    intro it hit
    obtain ⟨e, -, rfl⟩ := List.mem_map.mp hit
    rfl
  rw [named, files_deleted hnone]
  rfl

theorem mem_named : f ∈ named items ↔ .file f ∈ items ∧ f.longs ≠ [] := by
  rw [named, List.mem_filter, mem_files, decide_eq_true_eq]

theorem Stands.congr {e : List UInt8 × List ℕ} (h : Stands s l e f) (hi : s'.info = s.info)
    (ht : ∀ c ∈ e.2, s'.entry c = s.entry c) : Stands s' l e f :=
  ⟨h.name, h.chain.chain.congr ht, hi ▸ h.chain.inCache, h.chain.apart⟩

theorem Rewritten.inodes (h : Rewritten s r l K E T s') {pos : ℕ} (hr : r ≠ .pos pos) :
    s'.inodes pos = s.inodes pos :=
  h.others (.pos pos) (Ne.symm hr)

theorem Rewritten.busy_iff (h : Rewritten s r l K E T s') : Busy s' r ↔ Busy s r :=
  exists_congr fun _ => and_congr_right fun hr => by rw [h.inodes hr]

theorem Rewritten.held (h : Rewritten s r l K E T s')
    (hh : ∀ pos ip, s.inodes pos = some ip → 0 < ip.ref)
    (pos : ℕ) (iq : Inode) (hiq : s'.inodes pos = some iq) : 0 < iq.ref := by
  by_cases hr : r = .pos pos
  · obtain ⟨ip, k, c, hip, hip'⟩ := h.self
    subst hr
    have hsame : some iq = some { ip with iLogi := k, iClus := c } := hiq.symm.trans hip'
    rw [Option.some.inj hsame]
    exact hh pos ip hip
  · exact hh pos iq ((h.inodes hr).symm.trans hiq)

theorem mem_cells {e : List UInt8 × List ℕ} {c : ℕ} (he : e ∈ σ.files) (hc : c ∈ e.2) : c ∈ σ.cells :=
  List.mem_flatMap.mpr ⟨e, he, hc⟩

theorem Represents.rewritten (h : Represents s r l σ) (hw : Rewritten s r l K E T s')
    (hfiles : ∃ items tail, Parsed E items tail ∧ List.Forall₂ (Stands s' l) σ'.files (named items))
    (htwo : ∀ c ∈ σ'.cells, 2 ≤ c) (hfree : ∀ c, c ∈ σ'.free ↔ s'.Free c) (hsound : σ'.Sound) :
    Represents s' r l σ' where
  rest := hw.rest
  apart := h.apart.rewritten hw
  range := hw.info ▸ h.range
  held := hw.held h.held
  files := hw.entries.symm ▸ hfiles
  two_le := htwo
  free := hfree
  sound := hsound

theorem Represents.same (h : Represents s r l σ)
    (hw : Rewritten s r l K (dirEntries s l) s.entry s') :
    Represents s' r l σ := by
  obtain ⟨items, tail, hp, hall⟩ := h.files
  refine h.rewritten hw ⟨items, tail, hp, ?_⟩ h.two_le (fun c => ?_) h.sound
  · exact hall.imp fun e f hst => hst.congr hw.info fun c _ => congrFun hw.table c
  · rw [h.free]
    exact (free_congr hw.info (congrFun hw.table c)).symm

theorem free_claimed {c d : ℕ} (hi : s'.info = s.info)
    (ht : s'.entry = fun d => if d = c then endOfCluster else s.entry d) :
    s'.Free d ↔ s.Free d ∧ d ≠ c := by
  have hd : s'.entry d = if d = c then endOfCluster else s.entry d := by rw [ht]
  constructor
  · intro hf
    have hz := hf.entry_eq
    rw [hd] at hz
    split at hz
    · exact absurd hz (by decide)
    · rename_i hne
      exact ⟨⟨hf.two_le, hi ▸ hf.inCache, hz⟩, hne⟩
  · rintro ⟨hf, hne⟩
    exact ⟨hf.two_le, hi ▸ hf.inCache, by rw [hd, if_neg hne, hf.entry_eq]⟩

theorem free_given_back {lf : List ℕ} {d : ℕ} (hi : s'.info = s.info)
    (ht : s'.entry = fun d => if d ∈ lf then 0 else s.entry d) (htwo : ∀ c ∈ lf, 2 ≤ c)
    (hcache : ∀ c ∈ lf, s.info.InCache c) : s'.Free d ↔ s.Free d ∨ d ∈ lf := by
  have hd : s'.entry d = if d ∈ lf then 0 else s.entry d := by rw [ht]
  constructor
  · intro hf
    have hz := hf.entry_eq
    rw [hd] at hz
    split at hz
    · rename_i hmem
      exact .inr hmem
    · exact .inl ⟨hf.two_le, hi ▸ hf.inCache, hz⟩
  · rintro (hf | hmem)
    · exact ⟨hf.two_le, hi ▸ hf.inCache, by rw [hd, hf.entry_eq, ite_self]⟩
    · exact ⟨htwo d hmem, hi ▸ hcache d hmem, by rw [hd, if_pos hmem]⟩

theorem Represents.claimed (h : Represents s r l σ) {c : ℕ} (hc : s.Free c) (hi : s'.info = s.info)
    (hentry : s'.entry c = endOfCluster) (hstart : getStartCluster f.short = c) :
    FileChain s' l f [c] := by
  have hin := (h.range c hc.two_le hc.inCache).lt
  have hend : c ≠ endOfCluster := by
    rw [Fat32Info.clusterAddr] at hin
    rw [endOfCluster]
    omega
  obtain ⟨ip, hon, -⟩ := h.rest.node
  refine ⟨⟨hstart, hend, hentry⟩, fun d hd => ?_, fun d hd hdl => ?_⟩
  · rw [List.mem_singleton.mp hd, hi]
    exact hc.inCache
  · exact hon.not_free hdl (List.mem_singleton.mp hd ▸ hc)

theorem Represents.create (h : Represents s r l σ) {name : CString} {mode : ℕ}
    (hready : (DirCall.create name mode).Ready s l) :
    ∃ σ' s', Fat32FileSystem.create r name mode s = .ok (0, s') ∧
      σ.Creates name.chars σ' ∧ Represents s' r l σ' ∧ (Busy s' r ↔ Busy s r) := by
  obtain ⟨hpos, hlen, hbase, hfirst, hfree, items, tail, hp, hroom⟩ := hready
  obtain ⟨items', tail₁, hp', hall⟩ := h.files
  obtain ⟨rfl, rfl⟩ := hp.unique hp'
  obtain ⟨c, f, pre, post, tail', s', hok, hadd⟩ := h.rest.adds h.apart h.range hp.entries hp.marks
    hp.ne_nil hroom hfree hpos hlen hbase hfirst mode
  have hc := hadd.free
  have hf := hadd.made
  have hw := hadd.rewritten
  have hnamed : named items = named pre ++ named post := by
    rw [named, hadd.files_eq, List.filter_append]
    rfl
  rw [hnamed] at hall
  obtain ⟨a, b, hfiles, ha, hb⟩ := exists_forall₂_append hall
  have hσ : σ = ⟨a ++ b, σ.free⟩ := by rw [← hfiles]
  have hcσ : c ∈ σ.free := (h.free c).mpr hc
  have hstep : σ.Creates name.chars ⟨a ++ (name.chars, [c]) :: b, σ.free \ {c}⟩ := by
    rw [hσ]
    exact .intro hcσ
  have hkeep : ∀ e ∈ σ.files, ∀ f', Stands s l e f' → Stands s' l e f' := by
    intro e he f' hst
    refine hst.congr hw.info fun d hd => ?_
    have hne : d ≠ c := fun hdc => h.sound.not_free d (mem_cells he hd) (hdc ▸ hcσ)
    rw [hw.table]
    exact if_neg hne
  have hentry : s'.entry c = endOfCluster := by
    rw [hw.table]
    exact if_pos rfl
  have hnew : Stands s' l (name.chars, [c]) f :=
    ⟨hf.name_eq.symm, h.claimed hc hw.info hentry hf.start⟩
  refine ⟨_, s', hok, hstep, h.rewritten hw
    ⟨_, tail', ⟨rfl, fun e he => hp.marks e (hadd.behind.subset he), hadd.ne_nil⟩, ?_⟩
    (fun d hd => ?_) (fun d => ?_) (hstep.spec h.sound).1, hw.busy_iff⟩
  · rw [named_append, named_file hf.longs]
    refine List.rel_append (forall₂_imp_of_mem ha fun e he => hkeep e ?_)
      (List.Forall₂.cons hnew (forall₂_imp_of_mem hb fun e he => hkeep e ?_))
    · rw [hfiles]
      exact List.mem_append_left b he
    · rw [hfiles]
      exact List.mem_append_right a he
  · rcases NameStore.mem_cells_insert.mp hd with hd | hd
    · rw [List.mem_singleton.mp hd]
      exact hc.two_le
    · exact h.two_le d (by rw [hσ]; exact hd)
  · exact (and_congr_left' (h.free d)).trans (free_claimed hw.info hw.table).symm

theorem Represents.unlink (h : Represents s r l σ) {name : CString}
    (hready : (DirCall.unlink name).Ready s l) :
    ∃ z σ' s', Fat32FileSystem.unlink r name s = .ok (z, s') ∧
      σ.Unlinks (Busy s r) name.chars z σ' ∧ Represents s' r l σ' ∧ (Busy s' r ↔ Busy s r) := by
  obtain ⟨items, tail, hp, hrem⟩ := hready
  obtain ⟨items', tail₁, hp', hall⟩ := h.files
  obtain ⟨rfl, rfl⟩ := hp.unique hp'
  obtain ⟨mark, rest, rfl⟩ := List.exists_cons_of_ne_nil hp.ne_nil
  have hchains : ∀ f, .file f ∈ items → f.longs ≠ [] → ∃ lf, FileChain s l f lf := by
    intro f hf hlongs
    obtain ⟨e, -, hst⟩ := exists_left_of_forall₂ hall (mem_named.mpr ⟨hf, hlongs⟩)
    exact ⟨e.2, hst.chain⟩
  obtain ⟨z, s', hok, hends⟩ := h.rest.unlink_ends h.apart hp.entries
    (hp.marks mark List.mem_cons_self) hrem h.held hchains
  cases hends with
  | @removed pre post f lf _ hsplit htaken hpre hlf _ hw =>
    have hnamed : named items = named pre ++ f :: named post := by
      rw [hsplit, named_append, named_file htaken.1]
    rw [hnamed] at hall
    obtain ⟨a, b', hfiles, ha, hb'⟩ := exists_forall₂_append hall
    obtain ⟨⟨w, lf'⟩, b, hst, hb, rfl⟩ := List.forall₂_cons_right_iff.mp hb'
    obtain rfl : lf = lf' := chain_unique hlf.chain hst.chain.chain
    have hσ : σ = ⟨a ++ (w, lf) :: b, σ.free⟩ := by rw [← hfiles]
    have hfirst : ∀ e ∈ a, ¬name.chars <+: e.1 := by
      intro e he hpref
      obtain ⟨f', hf', hst'⟩ := exists_right_of_forall₂ ha he
      obtain ⟨hmem, hlongs⟩ := mem_named.mp hf'
      exact hpre _ hmem ⟨hlongs, hst'.name ▸ hpref⟩
    have hstep : σ.Unlinks (Busy s r) name.chars 0 ⟨a ++ b, σ.free ∪ {c | c ∈ lf}⟩ := by
      have hname : w = untilNul f.bytes := hst.name
      have hbegins : name.chars <+: w := hname ▸ htaken.2
      rw [hσ]
      exact .removed hbegins hfirst
    obtain ⟨-, -, hapart⟩ := NameStore.nodup_cells_insert.mp (hσ ▸ h.sound.nodup)
    have hkeep : ∀ e ∈ a ++ b, ∀ f', Stands s l e f' → Stands s' l e f' := by
      intro e he f' hst'
      refine hst'.congr hw.info fun d hd => ?_
      have hne : d ∉ lf := fun hdl => hapart d hdl (mem_cells (σ := ⟨a ++ b, σ.free⟩) he hd)
      rw [hw.table]
      exact if_neg hne
    refine ⟨0, _, s', hok, hstep, h.rewritten hw ⟨_, _, ⟨rfl, hp.marks, hp.ne_nil⟩, ?_⟩
      (fun d hd => ?_) (fun d => ?_) (hstep.spec h.sound).1, hw.busy_iff⟩
    · rw [named_append, named_append, named_deleted, List.append_nil]
      exact List.rel_append (forall₂_imp_of_mem ha fun e he => hkeep e (List.mem_append_left b he))
        (forall₂_imp_of_mem hb fun e he => hkeep e (List.mem_append_right a he))
    · exact h.two_le d (by rw [hσ]; exact NameStore.mem_cells_insert.mpr (.inr hd))
    · have htwo : ∀ c ∈ lf, 2 ≤ c := fun c hcl =>
        h.two_le c (by rw [hσ]; exact NameStore.mem_cells_insert.mpr (.inl hcl))
      exact (or_congr_left (h.free d)).trans
        (free_given_back hw.info hw.table htwo hlf.inCache).symm
  | @refused pre post f lf _ hsplit htaken hpre hlf hin hs =>
    have hw := hs.rewritten h.rest (K := l)
    obtain ⟨hpos, hle⟩ := length_layout_upto hp.entries hsplit
    have hmem : .file f ∈ items := by
      rw [hsplit]
      exact List.mem_append_right _ List.mem_cons_self
    obtain ⟨e, he, hst⟩ := exists_left_of_forall₂ hall (mem_named.mpr ⟨hmem, htaken.1⟩)
    exact ⟨-1, σ, s', hok, .refused ⟨_, h.rest.posOf_ne h.apart hpos hle, hin⟩ he (hst.name ▸ htaken.2),
      h.same hw, hw.busy_iff⟩
  | missed hnone hs =>
    have hw := hs.rewritten h.rest (K := l)
    refine ⟨0, σ, s', hok, .missing fun e he hpref => ?_, h.same hw, hw.busy_iff⟩
    obtain ⟨f, hf, hst⟩ := exists_right_of_forall₂ hall he
    obtain ⟨hmem, hlongs⟩ := mem_named.mp hf
    exact hnone _ hmem ⟨hlongs, hst.name ▸ hpref⟩

theorem DirCall.step_refines (h : Represents s r l σ) {c : DirCall} (hready : c.Ready s l) :
    ∃ z σ' s', c.run r s = .ok (z, s') ∧ c.Does (Busy s r) σ z σ' ∧ Represents s' r l σ' ∧
      (Busy s' r ↔ Busy s r) := by
  cases c with
  | create name mode =>
    obtain ⟨σ', s', hok, hstep, hrest⟩ := h.create hready
    exact ⟨0, σ', s', hok, ⟨rfl, hstep⟩, hrest⟩
  | unlink name => exact h.unlink hready

end Step

def runDirCalls (r : InodeRef) : List DirCall → FsM (List ℤ)
  | [] => return []
  | c :: cs => do
    let z ← c.run r
    let zs ← runDirCalls r cs
    return z :: zs

inductive DoesAll (busy : Prop) : List DirCall → NameStore UInt8 ℕ → List ℤ → NameStore UInt8 ℕ → Prop
  | nil {σ : NameStore UInt8 ℕ} : DoesAll busy [] σ [] σ
  | cons {c : DirCall} {cs : List DirCall} {σ σ' σ'' : NameStore UInt8 ℕ} {z : ℤ} {zs : List ℤ}
    (h : c.Does busy σ z σ') (hs : DoesAll busy cs σ' zs σ'') : DoesAll busy (c :: cs) σ (z :: zs) σ''

theorem DoesAll.spec {busy : Prop} {cs : List DirCall} {zs : List ℤ} (h : DoesAll busy cs σ zs σ')
    (hs : σ.Sound) : σ'.Sound ∧ σ'.all = σ.all := by
  induction h with
  | nil => exact ⟨hs, rfl⟩
  | @cons c cs σ σ₁ σ' z zs hc _ ih =>
    have hstep : σ₁.Sound ∧ σ₁.all = σ.all := by
      cases c with
      | create name mode => exact hc.2.spec hs
      | unlink name => exact NameStore.Unlinks.spec hc hs
    obtain ⟨hsound, hall⟩ := ih hstep.1
    exact ⟨hsound, hall.trans hstep.2⟩

/-- Every sequence of calls of `Create` and `Unlink` acts on the store that the directory holds and
leaves the directory holding one; the clusters of the files and the free ones are those of before. -/
theorem runDirCalls_refines (h : Represents s r l σ) (calls : List DirCall)
    (hready : ∀ pre c post, calls = pre ++ c :: post → ∀ zs s', runDirCalls r pre s = .ok (zs, s') →
      c.Ready s' l) :
    ∃ zs σ' s', runDirCalls r calls s = .ok (zs, s') ∧ DoesAll (Busy s r) calls σ zs σ' ∧
      Represents s' r l σ' ∧ σ'.all = σ.all := by
  induction calls generalizing s σ with
  | nil => exact ⟨[], σ, s, rfl, .nil, h, rfl⟩
  | cons c cs ih =>
    obtain ⟨z, σ₁, s₁, hok, hstep, h₁, hbusy⟩ := DirCall.step_refines h (hready [] c cs rfl [] s rfl)
    have hrest : ∀ pre d post, cs = pre ++ d :: post → ∀ zs s', runDirCalls r pre s₁ = .ok (zs, s') →
        d.Ready s' l := by
      intro pre d post he zs s' hpre
      refine hready (c :: pre) d post (by rw [he]; rfl) (z :: zs) s' ?_
      rw [runDirCalls, bind_of_ok hok, bind_of_ok hpre]
      rfl
    obtain ⟨zs, σ', s', hok', hall, h', -⟩ := ih h₁ hrest
    rw [propext hbusy] at hall
    have hrun := DoesAll.cons hstep hall
    refine ⟨z :: zs, σ', s', ?_, hrun, h', (hrun.spec h.sound).2⟩
    rw [runDirCalls, bind_of_ok hok, bind_of_ok hok']
    rfl

def subStore : NameStore UInt8 ℕ := ⟨[([0x61], [5])], {c | subVolume.Free c}⟩

theorem represents_subVolume : Represents subVolume (.pos 59392) [2] subStore where
  rest := dirAtRest_subVolume
  apart := ownApart_subVolume
  range := inRange_subVolume
  held _ _ := inodes_subVolume
  files := by
    obtain ⟨tail, hl, hzero, hlen⟩ := dirEntries_subVolume_zero
    refine ⟨_, tail, ⟨hl, hzero, List.ne_nil_of_length_pos (by omega)⟩, ?_⟩
    rw [named_file (List.cons_ne_nil _ _)]
    exact List.Forall₂.cons ⟨by decide +kernel, fileChain_fileA⟩ List.Forall₂.nil
  two_le c hc := by
    rw [List.mem_singleton.mp hc]
    norm_num
  free c := Iff.rfl
  sound := by
    refine ⟨List.nodup_singleton 5, fun c hc hfree => ?_⟩
    have hentry : subVolume.entry 5 = endOfCluster := by decide +kernel
    rw [List.mem_singleton.mp hc] at hfree
    have hz := hentry.symm.trans hfree.entry_eq
    exact absurd hz (by decide)

theorem only_fileA (h : [Item.file fileA] = pre ++ .file f :: post) :
    pre = [] ∧ f = fileA ∧ post = [] := by
  cases pre with
  | nil =>
    rw [List.nil_append, List.cons.injEq, Item.file.injEq] at h
    exact ⟨rfl, h.1.symm, h.2.symm⟩
  | cons it pre => simp at h

/-- Where the file was there are deleted entries now, and its cluster is free. -/
theorem ready_subVolume_unlinked {zs : List ℤ}
    (hrun : runDirCalls (.pos 59392) [.unlink plainA] subVolume = .ok (zs, s')) :
    (DirCall.create nameA 0).Ready s' [2] := by
  obtain ⟨tail, hl, hzero, hlen⟩ := dirEntries_subVolume_zero
  have hne : tail ≠ [] := List.ne_nil_of_length_pos (by omega)
  obtain ⟨mark, rest, rfl⟩ := List.exists_cons_of_ne_nil hne
  have hchains : ∀ f, .file f ∈ [Item.file fileA] → f.longs ≠ [] →
      ∃ lf, FileChain subVolume [2] f lf := by
    intro f hf _
    rw [List.mem_singleton, Item.file.injEq] at hf
    exact ⟨[5], hf ▸ fileChain_fileA⟩
  obtain ⟨z, s₁, hok, hends⟩ := dirAtRest_subVolume.unlink_ends ownApart_subVolume hl
    (hzero mark List.mem_cons_self) removable_subVolume (fun _ _ => inodes_subVolume) hchains
  have hone : runDirCalls (.pos 59392) [.unlink plainA] subVolume = .ok ([z], s₁) := by
    rw [runDirCalls, show (DirCall.unlink plainA).run (.pos 59392) = unlink (.pos 59392) plainA from rfl,
      bind_of_ok hok]
    rfl
  obtain ⟨-, rfl⟩ := Prod.mk.inj (Except.ok.inj (hrun.symm.trans hone))
  cases hends with
  | @removed pre post f lf _ hsplit _ _ hlf _ hw =>
    obtain ⟨rfl, rfl, rfl⟩ := only_fileA hsplit
    obtain rfl : lf = [5] := chain_unique hlf.chain fileChain_fileA.chain
    have hfree : s'.Free 5 := by
      refine ⟨by norm_num, ?_, ?_⟩
      · rw [hw.info]
        exact inCache_smallVolume (by norm_num)
      · rw [hw.table]
        exact if_pos (List.mem_singleton_self 5)
    exact ⟨by decide, by decide, by decide, by decide, ⟨5, hfree⟩, _, mark :: rest,
      ⟨hw.entries, hzero, List.cons_ne_nil _ _⟩, hasRoom_of_le (by
        rw [hlen]
        decide)⟩
  | refused hsplit _ _ _ hin _ =>
    obtain ⟨rfl, rfl, rfl⟩ := only_fileA hsplit
    exact absurd (by decide +kernel) hin
  | missed hnone _ => exact absurd takenBy_fileA (hnone _ List.mem_cons_self)

theorem runDirCalls_refines_subVolume : ∃ zs σ' s',
    runDirCalls (.pos 59392) [.unlink plainA, .create nameA 0] subVolume = .ok (zs, s') ∧
      Represents s' (.pos 59392) [2] σ' ∧ σ'.all = subStore.all := by
  have hready : ∀ pre c post, [DirCall.unlink plainA, .create nameA 0] = pre ++ c :: post → ∀ zs s',
      runDirCalls (.pos 59392) pre subVolume = .ok (zs, s') → c.Ready s' [2] := by
    intro pre c post he zs s' hpre
    cases pre with
    | nil =>
      obtain rfl := (List.cons.inj he).1
      cases hpre
      obtain ⟨tail, hl, hzero, hlen⟩ := dirEntries_subVolume_zero
      exact ⟨_, tail, ⟨hl, hzero, List.ne_nil_of_length_pos (by omega)⟩, removable_subVolume⟩
    | cons d pre =>
      obtain ⟨rfl, htail⟩ := List.cons.inj he
      cases pre with
      | nil =>
        obtain rfl := (List.cons.inj htail).1
        exact ready_subVolume_unlinked hpre
      | cons d' pre => simp at htail
  obtain ⟨zs, σ', s', hok, -, hrep, hall⟩ :=
    runDirCalls_refines represents_subVolume [.unlink plainA, .create nameA 0] hready
  exact ⟨zs, σ', s', hok, hrep, hall⟩

end StartOS.Fat32FileSystem
