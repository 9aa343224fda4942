import StartOS.Fs.Durability
import StartOS.Fs.Geometry

/-! # Chains of other systems

In a FAT32 table the upper four bits of an entry are reserved, every number from
0x0ffffff8 on marks the end of a chain, and an empty file starts at cluster 0.
`bmap` takes the entries as they are and knows one mark.
-/

namespace StartOS.Fat32FileSystem

open Linked Hoare

variable {s s' : Fat32FileSystem} {T : ℕ → ℕ} {total a b c cur d f i k m n v : ℕ} {l : List ℕ}
  {r : InodeRef} {ip : Inode}

def fatNext (T : ℕ → ℕ) (c : ℕ) : ℕ :=
  if 0x0ffffff8 ≤ T c % 2 ^ 28 then endOfCluster else T c % 2 ^ 28

def FileClusters (T : ℕ → ℕ) (a : ℕ) (l : List ℕ) : Prop :=
  a = 0 ∧ l = [] ∨ l ≠ [] ∧ Chain (fatNext T) endOfCluster a l

/-- The file at `a` of a volume of `total` sectors has the clusters `l` in the table `T`, which the
cache agrees with as far as it goes. -/
structure Conforming (total : ℕ) (T : ℕ → ℕ) (s : Fat32FileSystem) (a : ℕ) (l : List ℕ) : Prop where
  geometry : s.info.FatGeometry
  cache : ∀ c, s.info.InCache c → s.entry c = T c
  clusters : FileClusters T a l
  data : ∀ c ∈ l, s.info.DataCluster total c

instance (info : Fat32Info) (c : ℕ) : Decidable (info.InCache c) :=
  decidable_of_iff (c ≤ info.clusterCount ∧ info.reserveSectors + c * 4 / 512 < 1024)
    ⟨fun h => ⟨h.1, h.2⟩, fun h => ⟨h.le_count, h.sector_lt⟩⟩

def tableOf (T : ℕ → ℕ) (s : Fat32FileSystem) (c : ℕ) : ℕ :=
  if s.info.InCache c then s.entry c else T c

/-- `bmap` finds a cluster of the file, to which it may have added data clusters. -/
def Finds (total : ℕ) (T : ℕ → ℕ) (s : Fat32FileSystem) (r : InodeRef) (a : ℕ) (l : List ℕ)
    (k : ℕ) : Prop :=
  ∃ c s' ext, bmap r k s = .ok (c, s') ∧ c ∈ l ++ ext ∧
    Conforming total (tableOf T s') s' a (l ++ ext)

def OnCursor (l : List ℕ) (ip : Inode) : Prop := l[ip.iLogi]? = some ip.iClus ∨ l = []

/-- The entries of `l` from place `i` up to `k` are plain cluster numbers, or the one mark at the
end. -/
def Plain (s : Fat32FileSystem) (l : List ℕ) (i k : ℕ) : Prop :=
  ∀ j c, i ≤ j → j < k → l[j]? = some c →
    s.info.InCache c ∧ s.entry c = (l[j + 1]?).getD endOfCluster

/-- There are `m` data clusters that `AllocCluster` takes for free. -/
def RoomFor (total : ℕ) (s : Fat32FileSystem) (m : ℕ) : Prop :=
  ∃ free : List ℕ, free.Nodup ∧ m ≤ free.length ∧
    ∀ c ∈ free, s.Free c ∧ s.info.DataCluster total c

def walkFrom (ip : Inode) (k : ℕ) : ℕ := if k ≥ ip.iLogi then ip.iLogi else 0

section Junk

theorem not_data_of_mark (hg : s.info.FatGeometry) (hv : 0x0ffffff7 ≤ v) (he : v ≠ endOfCluster)
    (hok : bmapLoop n v s = .ok (c, s')) : 0x0ffffff7 ≤ c := by
  induction n generalizing v with
  | zero =>
    cases hok
    exact hv
  | succ n ih =>
    have hcount := hg.clusterCount
    rw [bmapLoop, if_neg he] at hok
    by_cases hgt : v > s.info.clusterCount
    · have hget : getFatEntry v s = .ok (minusOne, s) := by
        simp only [getFatEntry, get_bind, if_pos hgt, pure_apply]
      rw [bind_of_ok hget, if_neg (by decide)] at hok
      exact ih (by decide) (by decide) hok
    · have hget : getFatEntry v s = .error (.panic "get fat entry") := by
        have hsec : ¬s.fatSectorOfCluster v < 1024 := by
          rw [fatSector_eq hg (by omega)]
          omega
        simp only [getFatEntry, get_bind, if_neg hgt, if_neg hsec, throw_apply]
      rw [bind_of_error hget] at hok
      cases hok

theorem not_data_of_outside (hg : s.info.FatGeometry) (hin : ¬s.info.InCache cur)
    (he : cur ≠ endOfCluster) (hok : bmapLoop (n + 1) cur s = .ok (c, s')) : 0x0ffffff7 ≤ c := by
  rw [bmapLoop, if_neg he] at hok
  by_cases hgt : cur > s.info.clusterCount
  · have hget : getFatEntry cur s = .ok (minusOne, s) := by
      simp only [getFatEntry, get_bind, if_pos hgt, pure_apply]
    rw [bind_of_ok hget, if_neg (by decide)] at hok
    exact not_data_of_mark hg (by decide) (by decide) hok
  · have hget : getFatEntry cur s = .error (.panic "get fat entry") := by
      have hsec : ¬s.fatSectorOfCluster cur < 1024 := by
        rw [fatSector_eq hg (by omega)]
        exact fun h => hin ⟨by omega, h⟩
      simp only [getFatEntry, get_bind, if_neg hgt, if_neg hsec, throw_apply]
    rw [bind_of_error hget] at hok
    cases hok

end Junk

section Room

theorem RoomFor.mono (h : RoomFor total s m) (hn : n ≤ m) : RoomFor total s n := by
  obtain ⟨free, hnd, hlen, hf⟩ := h
  exact ⟨free, hnd, hn.trans hlen, hf⟩

theorem roomFor_zero : RoomFor total s 0 := ⟨[], List.nodup_nil, le_rfl, by simp⟩

theorem RoomFor.exists_free (h : RoomFor total s (m + 1)) :
    ∃ f, s.Free f ∧ s.info.DataCluster total f := by
  obtain ⟨free, -, hlen, hf⟩ := h
  cases free with
  | nil => simp at hlen
  | cons c free => exact ⟨c, hf c List.mem_cons_self⟩

theorem free_link_iff (hf : s.Free f) (hb : s.entry b ≠ 0) :
    (s.link b f).Free c ↔ s.Free c ∧ c ≠ f := by
  have hbf : b ≠ f := fun he => hb (he ▸ hf.entry_eq)
  constructor
  · rintro ⟨h₂, hin, h₀⟩
    rw [entry_link hf] at h₀
    split at h₀
    · have := hf.two_le
      omega
    · split at h₀
      · exact absurd h₀ (by decide)
      · exact ⟨⟨h₂, hin, h₀⟩, ‹_›⟩
  · rintro ⟨hc, hne⟩
    have hcb : c ≠ b := fun he => hb (he ▸ hc.entry_eq)
    exact ⟨hc.two_le, hc.inCache, by rw [entry_link hf, if_neg hcb, if_neg hne]; exact hc.entry_eq⟩

theorem roomFor_link_iff (hf : s.Free f) (hb : s.entry b ≠ 0) (hd : s.info.DataCluster total f) :
    RoomFor total (s.link b f) m ↔ RoomFor total s (m + 1) := by
  constructor
  · rintro ⟨free, hnd, hlen, hfree⟩
    refine ⟨f :: free, List.nodup_cons.mpr ⟨fun hm => ?_, hnd⟩, ?_, fun c hc => ?_⟩
    · exact ((free_link_iff hf hb).mp (hfree f hm).1).2 rfl
    · rw [List.length_cons]
      omega
    · rcases List.mem_cons.mp hc with rfl | hc
      · exact ⟨hf, hd⟩
      · exact ⟨((free_link_iff hf hb).mp (hfree c hc).1).1, (hfree c hc).2⟩
  · rintro ⟨free, hnd, hlen, hfree⟩
    refine ⟨free.erase f, hnd.erase f, ?_, fun c hc => ?_⟩
    · have := List.length_erase_of_mem (l := free) (a := f)
      by_cases hm : f ∈ free
      · rw [this hm]
        omega
      · rw [List.erase_of_not_mem hm]
        omega
    · have hc' := hfree c (List.mem_of_mem_erase hc)
      refine ⟨(free_link_iff hf hb).mpr ⟨hc'.1, fun he => ?_⟩, hc'.2⟩
      exact hnd.not_mem_erase (he ▸ hc)

/-- With no data cluster to take, the clusters that are appended are none. -/
theorem not_data_of_full (hg : s.info.FatGeometry) (hin : s.info.InCache cur)
    (hend : s.entry cur = endOfCluster) (hfull : ∀ d, s.Free d → ¬s.info.DataCluster total d)
    (hok : bmapLoop (n + 1) cur s = .ok (c, s')) : ¬s'.info.DataCluster total c := by
  induction n generalizing s cur with
  | zero =>
    rw [bmapLoop, if_neg (inCache_ne_end hin), bind_of_ok (getFatEntry_eq hg hin), if_pos hend] at hok
    rcases allocCluster_cases hg with ⟨f, hf, -, he⟩ | ⟨⟨e, he⟩, -⟩
    · rw [bind_of_ok he, bind_of_ok (setFatEntry_eq (s := s.claim f) hg hin)] at hok
      cases hok
      exact hfull _ hf
    · rw [bind_of_error he] at hok
      cases hok
  | succ n ih =>
    rw [bmapLoop, if_neg (inCache_ne_end hin), bind_of_ok (getFatEntry_eq hg hin), if_pos hend] at hok
    rcases allocCluster_cases hg with ⟨f, hf, -, he⟩ | ⟨⟨e, he⟩, -⟩
    · rw [bind_of_ok he, bind_of_ok (setFatEntry_eq (s := s.claim f) hg hin)] at hok
      have hne : s.entry cur ≠ 0 := by rw [hend]; decide
      have hfc : f ≠ cur := fun h => hne (h ▸ hf.entry_eq)
      refine ih (s := s.link cur f) hg hf.inCache ?_ (fun d hd => ?_) hok
      · rw [entry_link hf, if_neg hfc, if_pos rfl]
      · exact hfull d ((free_link_iff hf hne).mp hd).1
    · rw [bind_of_error he] at hok
      cases hok

end Room

theorem tableOf_of_inCache (h : s.info.InCache c) : tableOf T s c = s.entry c := if_pos h

theorem fatNext_congr {T' : ℕ → ℕ} (h : T' c = T c) : fatNext T' c = fatNext T c := by
  rw [fatNext, fatNext, h]

theorem fatNext_of_end (h : T c = endOfCluster) : fatNext T c = endOfCluster := by
  rw [fatNext, h]
  rfl

theorem fatNext_of_lt (h : T c < 0x0ffffff8) : fatNext T c = T c := by
  have hmod : T c % 2 ^ 28 = T c := Nat.mod_eq_of_lt (by omega)
  rw [fatNext, hmod, if_neg (by omega)]

namespace Conforming

variable (h : Conforming total T s a l)
include h

theorem tableOf_eq (hin : s.info.InCache c) : tableOf T s c = T c := by
  rw [tableOf_of_inCache hin, h.cache c hin]

theorem chain (hl : l ≠ []) : Chain (fatNext T) endOfCluster a l :=
  (h.clusters.resolve_left fun h => hl h.2).2

theorem fatNext_getElem (hi : i < l.length) : fatNext T l[i] = (l[i + 1]?).getD endOfCluster := by
  have hch := h.chain (List.ne_nil_of_length_pos (by omega))
  by_cases hn : i + 1 < l.length
  · rw [hch.next_getElem hn, List.getElem?_eq_getElem hn]
    rfl
  · rw [hch.next_last (by omega), List.getElem?_eq_none (by omega)]
    rfl

theorem nodup : l.Nodup := by
  rcases h.clusters with ⟨-, rfl⟩ | ⟨-, hch⟩
  · exact List.nodup_nil
  · exact hch.nodup

theorem not_mem_of_free (hf : s.Free f) : f ∉ l := by
  intro hm
  obtain ⟨i, hi, rfl⟩ := List.getElem_of_mem hm
  have hnext := h.fatNext_getElem hi
  have hzero : T l[i] = 0 := by rw [← h.cache _ hf.inCache, hf.entry_eq]
  rw [fatNext_of_lt (by omega), hzero] at hnext
  by_cases hn : i + 1 < l.length
  · rw [List.getElem?_eq_getElem hn, Option.getD_some] at hnext
    have := (h.data _ (List.getElem_mem hn)).1
    omega
  · rw [List.getElem?_eq_none (by omega)] at hnext
    exact absurd hnext (by decide)

theorem length_lt : l.length < 2 ^ 28 := by
  refine length_lt_of_nodup h.nodup (by norm_num) fun c hc => ?_
  have hd := h.data c hc
  exact ⟨by have := hd.1; omega, by have := hd.2.1; omega⟩

theorem link {l₀ : List ℕ} (hl : l = l₀ ++ [b]) (hin : s.info.InCache b)
    (hend : s.entry b = endOfCluster) (hf : s.Free f) (hd : s.info.DataCluster total f) :
    Conforming total (tableOf T (s.link b f)) (s.link b f) a (l ++ [f]) := by
  have hne : s.entry b ≠ 0 := by rw [hend]; decide
  have hbf : b ≠ f := fun he => hne (he ▸ hf.entry_eq)
  have hbl : b ∉ l₀ := fun hm => by
    have hnd := hl ▸ h.nodup
    exact (List.nodup_append.mp hnd).2.2 b hm b List.mem_cons_self rfl
  have hfl := h.not_mem_of_free hf
  have hin' : ∀ {c}, s.info.InCache c → tableOf T (s.link b f) c = (s.link b f).entry c :=
    fun hc => tableOf_of_inCache (s := s.link b f) hc
  have hsame : ∀ c, c ≠ b → c ≠ f → tableOf T (s.link b f) c = T c := by
    intro c hcb hcf
    by_cases hc : s.info.InCache c
    · rw [hin' hc, entry_link hf, if_neg hcb, if_neg hcf, h.cache c hc]
    · exact if_neg hc
  refine ⟨h.geometry, fun c hc => (hin' hc).symm, .inr ⟨by simp, ?_⟩, fun c hc => ?_⟩
  · have hch := h.chain (by simp [hl])
    rw [hl, List.append_assoc]
    refine Chain.snoc (hl ▸ hch) (hd.ne_end) ?_ ?_ fun d hm => ?_
    · have hlt := hd.2.1
      have hb : tableOf T (s.link b f) b = f := by rw [hin' hin, entry_link hf, if_pos rfl]
      rw [fatNext_of_lt (by omega), hb]
    · refine fatNext_of_end ?_
      rw [hin' hf.inCache, entry_link hf, if_neg hbf.symm, if_pos rfl]
    · refine fatNext_congr (hsame d (fun he => hbl (he ▸ hm)) fun he => hfl ?_)
      rw [hl, ← he]
      exact List.mem_append_left _ hm
  · rcases List.mem_append.mp hc with hc | hc
    · exact h.data c hc
    · rw [List.mem_singleton] at hc
      exact hc ▸ hd

theorem tableOf_self : tableOf T s = T := by
  funext c
  by_cases hc : s.info.InCache c
  · exact h.tableOf_eq hc
  · exact if_neg hc

end Conforming

theorem tableOf_tableOf (h : s'.info = s.info) : tableOf (tableOf T s) s' = tableOf T s' := by
  funext c
  by_cases hc : s'.info.InCache c
  · rw [tableOf_of_inCache hc, tableOf_of_inCache hc]
  · have hc' : ¬s.info.InCache c := h ▸ hc
    rw [tableOf, if_neg hc, tableOf, if_neg hc', tableOf, if_neg hc]

section Walk

variable (hg : s.info.FatGeometry)
include hg

theorem bmapLoop_next (hin : s.info.InCache cur) (he : s.entry cur = d) (hd : d ≠ endOfCluster) :
    bmapLoop (n + 1) cur s = bmapLoop n d s := by
  rw [bmapLoop, if_neg (inCache_ne_end hin), bind_of_ok (getFatEntry_eq hg hin), he, if_neg hd]

theorem bmapLoop_end (hin : s.info.InCache cur) (he : s.entry cur = endOfCluster) :
    (∃ f, s.Free f ∧ (∀ d, s.Free d → f ≤ d) ∧
      bmapLoop (n + 1) cur s = bmapLoop n f (s.link cur f)) ∨
    (∃ e, bmapLoop (n + 1) cur s = .error e) ∧ ∀ f, ¬s.Free f := by
  rw [bmapLoop, if_neg (inCache_ne_end hin), bind_of_ok (getFatEntry_eq hg hin), if_pos he]
  rcases allocCluster_cases hg with ⟨f, hf, hmin, hok⟩ | ⟨⟨e, herr⟩, hno⟩
  · refine .inl ⟨f, hf, fun d hd => ?_, ?_⟩
    · by_contra hlt
      exact hmin d hd.two_le (by omega) hd.entry_eq
    · rw [bind_of_ok hok, bind_of_ok (setFatEntry_eq (s := s.claim f) hg hin)]
      rfl
  · exact .inr ⟨⟨e, bind_of_error herr⟩, hno⟩

end Walk

theorem data_of_le (hd : s.info.DataCluster total d) (hc : 2 ≤ c) (hle : c ≤ d) :
    s.info.DataCluster total c := by
  obtain ⟨-, hlt, htot⟩ := hd
  refine ⟨hc, by omega, le_trans ?_ htot⟩
  have hmul : (c - 2) * s.info.sectorsPerCluster ≤ (d - 2) * s.info.sectorsPerCluster :=
    Nat.mul_le_mul_right _ (by omega)
  simp only [Fat32Info.clusterSector]
  omega

def SameInodes (s s' : Fat32FileSystem) : Prop := s'.info = s.info ∧ ∀ r, s'.inode? r = s.inode? r

theorem sameInodes_link (s : Fat32FileSystem) (b f : ℕ) : SameInodes s (s.link b f) :=
  ⟨rfl, fun r => by cases r <;> rfl⟩

theorem plain_tail (h : Plain s l i (i + (n + 1))) : Plain s l (i + 1) (i + 1 + n) :=
  fun j c h₁ h₂ hc => h j c (by omega) (by omega) hc

theorem dropLast_append_of_last (hi : l[i]? = some cur) (hlast : i + 1 = l.length) :
    l = l.dropLast ++ [cur] := by
  have hne : l ≠ [] := List.ne_nil_of_length_pos (by omega)
  have hcur : l.getLast? = some cur := by
    rw [List.getLast?_eq_getElem?, ← hlast, Nat.add_sub_cancel, hi]
  rw [List.getLast?_eq_some_getLast hne, Option.some.injEq] at hcur
  rw [← hcur, List.dropLast_append_getLast hne]

theorem bmapLoop_plain (h : Conforming total T s a l) (hi : l[i]? = some cur)
    (hp : Plain s l i (i + n)) (hr : RoomFor total s (i + n + 1 - l.length)) :
    ∃ c s' ext, bmapLoop n cur s = .ok (c, s') ∧ (l ++ ext)[i + n]? = some c ∧
      Conforming total (tableOf T s') s' a (l ++ ext) ∧ SameInodes s s' := by
  induction n generalizing s T l i cur with
  | zero =>
    refine ⟨cur, s, [], rfl, ?_, ?_, rfl, fun _ => rfl⟩
    · rw [List.append_nil, Nat.add_zero, hi]
    · rw [List.append_nil, h.tableOf_self]
      exact h
  | succ n ih =>
    obtain ⟨hlt, hcur⟩ := List.getElem?_eq_some_iff.mp hi
    obtain ⟨hin, he⟩ := hp i cur le_rfl (by omega) hi
    by_cases hn : i + 1 < l.length
    · have hnext := List.getElem?_eq_getElem hn
      rw [hnext, Option.getD_some] at he
      rw [bmapLoop_next h.geometry hin he (h.data _ (List.getElem_mem hn)).ne_end,
        show i + (n + 1) = i + 1 + n by omega]
      exact ih h hnext (plain_tail hp) (by rwa [show i + 1 + n = i + (n + 1) by omega])
    · have hlast : i + 1 = l.length := by omega
      rw [List.getElem?_eq_none (by omega), Option.getD_none] at he
      rw [show i + (n + 1) + 1 - l.length = n + 1 by omega] at hr
      obtain ⟨d, hfree, hdata⟩ := hr.exists_free
      rcases bmapLoop_end (n := n) h.geometry hin he with ⟨f, hf, hmin, hrun⟩ | ⟨-, hno⟩
      · have hfd := data_of_le hdata hf.two_le (hmin d hfree)
        have hlink := h.link (dropLast_append_of_last hi hlast) hin he hf hfd
        have hne : s.entry cur ≠ 0 := by rw [he]; decide
        have hif : (l ++ [f])[i + 1]? = some f := by
          rw [hlast]
          simp
        have hplain : Plain (s.link cur f) (l ++ [f]) (i + 1) (i + 1 + n) := by
          intro j c h₁ h₂ hc
          obtain ⟨hj, -⟩ := List.getElem?_eq_some_iff.mp hc
          rw [List.length_append, List.length_singleton] at hj
          obtain rfl : j = i + 1 := by omega
          rw [hif, Option.some.injEq] at hc
          subst hc
          have hfc : f ≠ cur := fun hfc => hne (hfc ▸ hf.entry_eq)
          refine ⟨hf.inCache, ?_⟩
          rw [entry_link hf, if_neg hfc, if_pos rfl, List.getElem?_eq_none (by simp; omega)]
          rfl
        obtain ⟨c, s', ext, hok, hres, hconf, hsame⟩ := ih hlink hif hplain (by
          rw [roomFor_link_iff hf hne hfd]
          exact hr.mono (by rw [List.length_append, List.length_singleton]; omega))
        refine ⟨c, s', f :: ext, hrun.trans hok, ?_, ?_, ?_⟩
        · rw [List.append_cons, show i + (n + 1) = i + 1 + n by omega]
          exact hres
        · rw [tableOf_tableOf hsame.1] at hconf
          rw [List.append_cons]
          exact hconf
        · exact ⟨hsame.1, fun r => (hsame.2 r).trans ((sameInodes_link s cur f).2 r)⟩
      · exact absurd hfree (hno d)

/-- Where the walk meets any other entry or the room is not enough, no data cluster comes out. -/
theorem bmapLoop_not_plain (h : Conforming total T s a l) (hi : l[i]? = some cur)
    (hnot : Plain s l i (i + n) → ¬RoomFor total s (i + n + 1 - l.length))
    (hok : bmapLoop n cur s = .ok (c, s')) : ¬s'.info.DataCluster total c := by
  induction n generalizing s T l i cur with
  | zero =>
    obtain ⟨hlt, -⟩ := List.getElem?_eq_some_iff.mp hi
    refine absurd (roomFor_zero.mono ?_) (hnot fun j c h₁ h₂ => by omega)
    omega
  | succ n ih =>
    obtain ⟨hlt, hcur⟩ := List.getElem?_eq_some_iff.mp hi
    have hmark : 0x0ffffff7 ≤ c → ¬s'.info.DataCluster total c := by
      rintro hle ⟨-, hclt, -⟩
      omega
    have hdcur := h.data cur (List.mem_of_getElem? hi)
    by_cases hin : s.info.InCache cur
    swap
    · exact hmark (not_data_of_outside h.geometry hin hdcur.ne_end hok)
    have hnext : fatNext T cur = (l[i + 1]?).getD endOfCluster := hcur ▸ h.fatNext_getElem hlt
    by_cases he : s.entry cur = (l[i + 1]?).getD endOfCluster
    swap
    · -- reserved bits, or a mark that is not known
      have hbig : 0x0ffffff8 ≤ s.entry cur := by
        by_contra hlt
        rw [h.cache cur hin] at he hlt
        exact he ((fatNext_of_lt (by omega)).symm.trans hnext)
      have hne : s.entry cur ≠ endOfCluster := fun hend => by
        rw [h.cache cur hin] at he hend
        exact he (hend.trans ((fatNext_of_end hend).symm.trans hnext))
      rw [bmapLoop_next h.geometry hin rfl hne] at hok
      exact hmark (not_data_of_mark h.geometry (by omega) hne hok)
    have hhead : Plain s l (i + 1) (i + 1 + n) → Plain s l i (i + (n + 1)) := by
      intro hp j c h₁ h₂ hc
      rcases Nat.eq_or_lt_of_le h₁ with rfl | h₁
      · rw [hi, Option.some.injEq] at hc
        exact hc ▸ ⟨hin, he⟩
      · exact hp j c h₁ (by omega) hc
    by_cases hn : i + 1 < l.length
    · have hget := List.getElem?_eq_getElem hn
      rw [hget, Option.getD_some] at he
      rw [bmapLoop_next h.geometry hin he (h.data _ (List.getElem_mem hn)).ne_end] at hok
      refine ih h hget (fun hp => ?_) hok
      rw [show i + 1 + n = i + (n + 1) by omega]
      exact hnot (hhead hp)
    · have hlast : i + 1 = l.length := by omega
      rw [List.getElem?_eq_none (by omega), Option.getD_none] at he
      have hroom : ¬RoomFor total s (n + 1) := by
        have := hnot (hhead fun j c h₁ h₂ hc => by
          obtain ⟨hj, -⟩ := List.getElem?_eq_some_iff.mp hc
          omega)
        rwa [show i + (n + 1) + 1 - l.length = n + 1 by omega] at this
      have hne : s.entry cur ≠ 0 := by rw [he]; decide
      rcases bmapLoop_end (n := n) h.geometry hin he with ⟨f, hf, hmin, hrun⟩ | ⟨⟨e, herr⟩, -⟩
      · rw [hrun] at hok
        have hfc : f ≠ cur := fun hfc => hne (hfc ▸ hf.entry_eq)
        by_cases hfd : s.info.DataCluster total f
        · have hlink := h.link (dropLast_append_of_last hi hlast) hin he hf hfd
          have hif : (l ++ [f])[i + 1]? = some f := by
            rw [hlast]
            simp
          refine ih (s := s.link cur f) hlink hif (fun _ hr => hroom ?_) hok
          rw [roomFor_link_iff hf hne hfd] at hr
          exact hr.mono (by rw [List.length_append, List.length_singleton]; omega)
        · have hfull : ∀ d, (s.link cur f).Free d → ¬s.info.DataCluster total d := fun d hd hdd =>
            hfd (data_of_le hdd hf.two_le (hmin d ((free_link_iff hf hne).mp hd).1))
          cases n with
          | zero =>
            cases hok
            exact hfd
          | succ n =>
            refine not_data_of_full (s := s.link cur f) h.geometry hf.inCache ?_ hfull hok
            rw [entry_link hf, if_neg hfc, if_pos rfl]
      · rw [herr] at hok
        cases hok

/-- Where the walk of `bmap` begins: at the cursor, or at the first cluster. -/
theorem bmap_eq_walk (h : Conforming total T s (s.startOf r ip) l) (hip : s.inode? r = some ip)
    (hcur : k < ip.iLogi ∨ l[ip.iLogi]? = some ip.iClus) (hl : l ≠ []) :
    ∃ cur, l[walkFrom ip k]? = some cur ∧ walkFrom ip k ≤ k ∧ bmap r k s = (do
      let cur ← bmapLoop (k - walkFrom ip k) cur
      if cur = endOfCluster then return minusOne
      updateInodeWith r fun ip => { ip with iLogi := k, iClus := cur }
      return cur : FsM ℕ) s := by
  have hstart : (if r = .root then s.info.rootDirectoryClusterStart else ip.iStart) =
    s.startOf r ip := rfl
  by_cases hge : k ≥ ip.iLogi
  · have hc := hcur.resolve_left (by omega)
    obtain ⟨hlt, -⟩ := List.getElem?_eq_some_iff.mp hc
    have hsign : signExtend ip.iLogi = ip.iLogi := if_pos (by have := h.length_lt; omega)
    refine ⟨ip.iClus, by rw [walkFrom, if_pos hge]; exact hc, by rw [walkFrom, if_pos hge]; exact hge,
      ?_⟩
    simp only [bmap, get_bind, bind_of_ok (inode_eq hip), if_pos hge, hsign, walkFrom]
  · refine ⟨s.startOf r ip, ?_, by rw [walkFrom, if_neg hge]; exact Nat.zero_le _, ?_⟩
    · have hpos := List.length_pos_of_ne_nil hl
      rw [walkFrom, if_neg hge, List.getElem?_eq_getElem hpos, (h.chain hl).getElem_zero hpos]
    · simp only [bmap, get_bind, bind_of_ok (inode_eq hip), if_neg hge, hstart, walkFrom]

/-- The cluster that is found is the one asked for, and the cursor stays on the chain. -/
theorem bmap_plain (h : Conforming total T s (s.startOf r ip) l) (hip : s.inode? r = some ip)
    (hcur : k < ip.iLogi ∨ l[ip.iLogi]? = some ip.iClus) (hl : l ≠ [])
    (hp : Plain s l (walkFrom ip k) k) (hr : RoomFor total s (k + 1 - l.length)) :
    ∃ c s' ext, bmap r k s = .ok (c, s') ∧ (l ++ ext)[k]? = some c ∧
      Conforming total (tableOf T s') s' (s.startOf r ip) (l ++ ext) ∧
      s'.inode? r = some { ip with iLogi := k, iClus := c } ∧ s'.info = s.info := by
  obtain ⟨cur, hi, hle, hrun⟩ := bmap_eq_walk h hip hcur hl
  have hsum : walkFrom ip k + (k - walkFrom ip k) = k := by omega
  obtain ⟨c, s', ext, hok, hres, hconf, hsame⟩ :=
    bmapLoop_plain (n := k - walkFrom ip k) h hi (by rwa [hsum]) (by rwa [hsum])
  rw [hsum] at hres
  have hne : c ≠ endOfCluster := (hconf.data c (List.mem_of_getElem? hres)).ne_end
  refine ⟨c, s'.setInode r { ip with iLogi := k, iClus := c }, ext, ?_, hres, ?_, ?_, ?_⟩
  · rw [hrun, bind_of_ok hok, if_neg hne,
      bind_of_ok (updateInodeWith_eq ((hsame.2 r).trans hip)), pure_apply]
  · have htable : tableOf T (s'.setInode r { ip with iLogi := k, iClus := c }) = tableOf T s' := by
      cases r <;> rfl
    rw [htable]
    exact ⟨by rw [info_setInode]; exact hconf.geometry,
      fun c hc => by rw [entry_setInode]; rw [info_setInode] at hc; exact hconf.cache c hc,
      hconf.clusters, fun c hc => by rw [info_setInode]; exact hconf.data c hc⟩
  · rw [inode?_setInode, if_pos rfl]
  · rw [info_setInode, hsame.1]

theorem info_of_updateInodeWith {g : Inode → Inode} (h : updateInodeWith r g s = .ok ((), s')) :
    s'.info = s.info := by
  rw [updateInodeWith, inode] at h
  cases hip : s.inode? r with
  | none =>
    rw [bind_apply, get_bind, hip] at h
    cases h
  | some ip =>
    rw [bind_apply, get_bind, hip] at h
    cases h
    exact info_setInode ..

theorem Conforming.not_finds_nil (h : Conforming total T s a []) : ¬Finds total T s r a [] k := by
  rintro ⟨c, s', ext, -, hc, hconf⟩
  have ha : a = 0 := (h.clusters.resolve_right fun h => h.1 rfl).1
  rw [List.nil_append] at hc hconf
  have hch := hconf.chain (List.ne_nil_of_mem hc)
  have hmem : a ∈ ext := hch.head_mem (by rw [ha]; decide)
  have := (hconf.data a hmem).1
  omega

/-- `bmap` finds a cluster of the file exactly where the file is not empty, the entries that it reads
are plain and there is room for the clusters that it adds. -/
theorem finds_iff (h : Conforming total T s (s.startOf r ip) l) (hip : s.inode? r = some ip)
    (hcur : k < ip.iLogi ∨ OnCursor l ip) :
    Finds total T s r (s.startOf r ip) l k ↔
      l ≠ [] ∧ Plain s l (walkFrom ip k) k ∧ RoomFor total s (k + 1 - l.length) := by
  by_cases hl : l = []
  · subst hl
    exact iff_of_false h.not_finds_nil fun h => h.1 rfl
  have hcur' : k < ip.iLogi ∨ l[ip.iLogi]? = some ip.iClus :=
    hcur.imp_right fun h => h.resolve_right hl
  constructor
  · rintro ⟨c, s', ext, hok, hc, hconf⟩
    refine ⟨hl, ?_⟩
    by_contra hnot
    obtain ⟨cur, hi, hle, hrun⟩ := bmap_eq_walk h hip hcur' hl
    have hsum : walkFrom ip k + (k - walkFrom ip k) = k := by omega
    rw [hrun] at hok
    obtain ⟨v, s₁, hloop, hok⟩ := bind_eq_ok.mp hok
    have hdata := hconf.data c hc
    have hbad := bmapLoop_not_plain h hi
      (fun hp hr => hnot ⟨by rwa [hsum] at hp, by rwa [hsum] at hr⟩)
      hloop
    by_cases hv : v = endOfCluster
    · rw [if_pos hv] at hok
      cases hok
      exact absurd hdata.2.1 (by decide)
    · rw [if_neg hv] at hok
      obtain ⟨⟨⟩, s₂, hup, hok⟩ := bind_eq_ok.mp hok
      cases hok
      rw [info_of_updateInodeWith hup] at hdata
      exact hbad hdata
  · rintro ⟨-, hp, hr⟩
    obtain ⟨c, s', ext, hok, hres, hconf, -, -⟩ := bmap_plain h hip hcur' hl hp hr
    exact ⟨c, s', ext, hok, List.mem_of_getElem? hres, hconf⟩

theorem not_finds_of_ok (hok : bmap r k s = .ok (c, s')) (hc : c < 2 ∨ 0x0ffffff7 ≤ c) :
    ¬Finds total T s r a l k := by
  rintro ⟨d, s₁, ext, hd, hmem, hconf⟩
  rw [hok, Except.ok.injEq, Prod.mk.injEq] at hd
  obtain ⟨rfl, rfl⟩ := hd
  have hdata := hconf.data c hmem
  have := hdata.1
  have := hdata.2.1
  omega

theorem cursor_inodeOf {entry : ByteMem} {pos : ℕ} {parent : InodeRef}
    (h : FileClusters T (inodeOf entry pos parent).iStart l) :
    OnCursor l (inodeOf entry pos parent) := by
  rcases h with ⟨-, hl⟩ | ⟨hl, hch⟩
  · exact .inr hl
  · have hpos := List.length_pos_of_ne_nil hl
    refine .inl ?_
    change l[0]? = some (inodeOf entry pos parent).iStart
    rw [List.getElem?_eq_getElem hpos, hch.getElem_zero hpos]

/-- Nothing sets the cursor of the root directory before `bmap` uses it. -/
theorem exists_not_finds_root (disk : ByteMem) (total : ℕ) (T : ℕ → ℕ) (l : List ℕ) (k : ℕ) :
    ∃ b, ¬Finds total T (mount b disk) .root (infoOf disk).rootDirectoryClusterStart l k := by
  let b : Boot :=
    { dev := 0
      fatCache := fun _ => 0
      buffers := ⟨fun _ => ⟨false, 0, 0, 0, false, 0, fun _ => 0⟩, 0, 0, Nat.succ, 0⟩
      root := ⟨0, k, 0, 0, 0, 0, 0, .root, fun _ => 0⟩
      stamps := fun _ => ⟨0, 0, 0, 0⟩
      junk := fun _ => 0 }
  suffices hok : bmap .root k (mount b disk) = .ok (0, (mount b disk).setInode .root
      { (mount b disk).root with iLogi := k, iClus := 0 }) from
    ⟨b, not_finds_of_ok hok (.inl (by norm_num))⟩
  have hsub : k - signExtend k = 0 := by
    rw [signExtend]
    split <;> omega
  have hlogi : (mount b disk).root.iLogi = k := rfl
  have hclus : (mount b disk).root.iClus = 0 := rfl
  rw [bmap, get_bind, bind_of_ok (inode_eq rfl)]
  simp only [hlogi, hclus, ge_iff_le, le_refl, if_true, hsub, bmapLoop, pure_bind]
  rw [if_neg (by decide)]
  exact bind_of_ok (updateInodeWith_eq rfl)

theorem cursor_bmap (h : Conforming total T s (s.startOf r ip) l) (hip : s.inode? r = some ip)
    (hcur : k < ip.iLogi ∨ OnCursor l ip) (hfind : Finds total T s r (s.startOf r ip) l k) :
    ∃ c s' ext ip', bmap r k s = .ok (c, s') ∧ s'.inode? r = some ip' ∧
      Conforming total (tableOf T s') s' (s'.startOf r ip') (l ++ ext) ∧ OnCursor (l ++ ext) ip' := by
  obtain ⟨hl, hp, hr⟩ := (finds_iff h hip hcur).mp hfind
  have hcur' : k < ip.iLogi ∨ l[ip.iLogi]? = some ip.iClus :=
    hcur.imp_right fun h => h.resolve_right hl
  obtain ⟨c, s', ext, hok, hc, hconf, hip', hinfo⟩ := bmap_plain h hip hcur' hl hp hr
  have hstart : s'.startOf r { ip with iLogi := k, iClus := c } = s.startOf r ip := by
    simp only [startOf, hinfo]
  exact ⟨c, s', ext, _, hok, hip', hstart ▸ hconf, .inl hc⟩

/-- Where `bmap` finds a cluster of the file: with the cursor on the chain exactly in the files that
are not empty, past plain entries only and with room for the clusters it adds. The cursor is there
in a new inode and after every call that finds a cluster; in the root directory of a volume that
has just been mounted it may be anywhere. -/
theorem bmap_conforming (s : Fat32FileSystem) (T : ℕ → ℕ) (total k : ℕ) (l : List ℕ) (r : InodeRef)
    (ip : Inode) (entry : ByteMem) (pos : ℕ) (parent : InodeRef) (disk : ByteMem) :
    (Conforming total T s (s.startOf r ip) l → s.inode? r = some ip → k < ip.iLogi ∨ OnCursor l ip →
      (Finds total T s r (s.startOf r ip) l k ↔
        l ≠ [] ∧ Plain s l (walkFrom ip k) k ∧ RoomFor total s (k + 1 - l.length)) ∧
      (Finds total T s r (s.startOf r ip) l k →
        ∃ c s' ext ip', bmap r k s = .ok (c, s') ∧ s'.inode? r = some ip' ∧
          Conforming total (tableOf T s') s' (s'.startOf r ip') (l ++ ext) ∧
          OnCursor (l ++ ext) ip')) ∧
    (FileClusters T (inodeOf entry pos parent).iStart l → OnCursor l (inodeOf entry pos parent)) ∧
    ∃ b, ¬Finds total T (mount b disk) .root (infoOf disk).rootDirectoryClusterStart l k := by
  refine ⟨fun h hip hcur => ⟨finds_iff h hip hcur, cursor_bmap h hip hcur⟩, ?_, ?_⟩
  · exact cursor_inodeOf
  · exact exists_not_finds_root disk total T l k

/-- The root directory of the volume is in one cluster; the second one is added. -/
theorem bmap_conforming_oneFile : Finds 800 oneFile.entry oneFile .root 4 [4] 1 := by
  have hinfo : oneFile.info = ⟨100, 100, 4096, 512, 8, 32, 4⟩ := info_oneFile
  have hstart : oneFile.startOf .root oneFile.root = 4 := by
    rw [startOf, if_pos rfl, hinfo]
  have hlast : oneFile.entry 4 = endOfCluster := by decide +kernel
  have hcache : ∀ c ≤ 100, oneFile.info.InCache c := by
    rw [hinfo]
    exact fun c hc => ⟨hc, by simp only; omega⟩
  have hdata : ∀ c, 3 ≤ c → c ≤ 4 → oneFile.info.DataCluster 800 c := by
    rw [hinfo]
    intro c h₁ h₂
    refine ⟨by omega, by omega, ?_⟩
    simp only [Fat32Info.clusterSector]
    omega
  have h : Conforming 800 oneFile.entry oneFile (oneFile.startOf .root oneFile.root) [4] := by
    refine ⟨(calm_oneFile (K := ∅)).geometry.toFatGeometry, fun c _ => rfl, .inr ⟨by decide, ?_⟩, fun c hc => ?_⟩
    · rw [hstart]
      exact ⟨rfl, by decide, fatNext_of_end hlast⟩
    · rw [List.mem_singleton] at hc
      exact hc ▸ hdata 4 (by norm_num) (by norm_num)
  have hfree : oneFile.Free 3 := ⟨by norm_num, hcache 3 (by norm_num), by decide +kernel⟩
  have hcur : 1 < oneFile.root.iLogi := by
    change 1 < 0x05050505
    norm_num
  have hiff := ((bmap_conforming oneFile oneFile.entry 800 1 [4] .root oneFile.root
    (fun _ => 0) 0 .root
    oneFileDisk).1 h rfl (.inl hcur)).1
  rw [hstart] at hiff
  refine hiff.mpr ⟨List.cons_ne_nil _ _, ?_, ?_⟩
  · rintro j c - h₂ hc
    obtain rfl : j = 0 := by omega
    cases hc
    exact ⟨hcache 4 (by norm_num), hlast⟩
  · exact ⟨[3], by simp, by simp, by simpa using ⟨hfree, hdata 3 (by norm_num) (by norm_num)⟩⟩

/-- The volume with the file of the directory entry at byte 1 opened, whose first cluster is `start`;
the table has `v` for cluster 5 and ends a chain at cluster 6. -/
def opened (start v : ℕ) : Fat32FileSystem :=
  let disk := (oneFileDisk.writeLE (32 * 512 + 20) 4 v).writeLE (32 * 512 + 24) 4 endOfCluster
  let entry := ByteMem.writeLE (fun _ => 0) 26 2 start
  (mount bootMemory disk).setInode (.pos 1) (inodeOf entry 1 .root)

theorem info_opened : (opened a v).info = ⟨100, 100, 4096, 512, 8, 32, 4⟩ := by
  rw [opened, info_setInode, ← info_oneFile]
  refine infoOf_congr fun y hy => ?_
  rw [ByteMem.writeLE_of_not_mem (by omega), ByteMem.writeLE_of_not_mem (by omega)]

theorem conforming_opened (hl : FileClusters (opened a v).entry a l) (hd : ∀ c ∈ l, c = 5 ∨ c = 6) :
    Conforming 800 (opened a v).entry (opened a v) a l := by
  refine ⟨?_, fun c _ => rfl, hl, fun c hc => ?_⟩
  · rw [info_opened]
    exact ⟨rfl, by norm_num, by norm_num⟩
  · rw [info_opened]
    rcases hd c hc with rfl | rfl
    · decide
    · decide

/-- What `bmap` returns. -/
def bmapResult (r : InodeRef) (k : ℕ) (s : Fat32FileSystem) : Option ℕ :=
  match bmap r k s with
  | .ok (c, _) => some c
  | .error _ => none

theorem not_finds_of_result (h : bmapResult r k s = some c) (hc : c < 2 ∨ 0x0ffffff7 ≤ c) :
    ¬Finds total T s r a l k := by
  rw [bmapResult] at h
  split at h
  · cases h
    exact not_finds_of_ok ‹_› hc
  · cases h

/-- Another mark, reserved bits that are set, and an empty file. -/
theorem bmap_not_conforming :
    (Conforming 800 (opened 5 0x0ffffff8).entry (opened 5 0x0ffffff8) 5 [5] ∧
      bmapResult (.pos 1) 1 (opened 5 0x0ffffff8) = some 0x0ffffff8 ∧
      ¬Finds 800 (opened 5 0x0ffffff8).entry (opened 5 0x0ffffff8) (.pos 1) 5 [5] 1) ∧
    (Conforming 800 (opened 5 0x10000006).entry (opened 5 0x10000006) 5 [5, 6] ∧
      bmapResult (.pos 1) 1 (opened 5 0x10000006) = some 0x10000006 ∧
      ¬Finds 800 (opened 5 0x10000006).entry (opened 5 0x10000006) (.pos 1) 5 [5, 6] 1) ∧
    (Conforming 800 (opened 0 0).entry (opened 0 0) 0 [] ∧
      bmapResult (.pos 1) 0 (opened 0 0) = some 0 ∧
      ¬Finds 800 (opened 0 0).entry (opened 0 0) (.pos 1) 0 [] 0) := by
  have hmark : (opened 5 0x0ffffff8).entry 5 = 0x0ffffff8 := by decide +kernel
  have hbits : (opened 5 0x10000006).entry 5 = 0x10000006 ∧
    (opened 5 0x10000006).entry 6 = endOfCluster := by decide +kernel
  have h₁ : bmapResult (.pos 1) 1 (opened 5 0x0ffffff8) = some 0x0ffffff8 := by decide +kernel
  have h₂ : bmapResult (.pos 1) 1 (opened 5 0x10000006) = some 0x10000006 := by decide +kernel
  have h₃ : bmapResult (.pos 1) 0 (opened 0 0) = some 0 := by decide +kernel
  refine And.intro (And.intro (conforming_opened (.inr ⟨by decide, ?_⟩) (by simp)) ?_)
    (And.intro (And.intro (conforming_opened (.inr ⟨by decide, ?_⟩) (by simp)) ?_)
      (And.intro (conforming_opened (.inl ⟨rfl, rfl⟩) (by simp)) ?_))
  · refine ⟨rfl, by decide, ?_⟩
    rw [path_nil, fatNext, hmark]
    rfl
  · exact ⟨h₁, not_finds_of_result h₁ (.inr (by norm_num))⟩
  · refine ⟨rfl, by decide, ?_, by decide, ?_⟩
    · rw [fatNext, hbits.1]
      rfl
    · rw [path_nil, fatNext_of_end hbits.2]
  · exact ⟨h₂, not_finds_of_result h₂ (.inr (by norm_num))⟩
  · exact ⟨h₃, not_finds_of_result h₃ (.inl (by norm_num))⟩

end StartOS.Fat32FileSystem
