import StartOS.Os.DescriptorRun

/-! # Closing the files of a process

`exit` closes the descriptors one by one. The last reference to an end of a pipe
closes that end, which is open: an open file is one end of its pipe and no other
file is the same end.
-/

namespace StartOS

open Hoare

def PipeEnds.isOpen (e : PipeEnds) (writeEnd : Bool) :
    Bool := if writeEnd then e.writeopen else e.readopen

def FileHandle.IsEnd (f : FileHandle) (p : ℕ) (writeEnd : Bool) : Prop :=
  f.type = .pipe ∧ f.pipe = p ∧ (if writeEnd then f.writable else f.readable) = true

/-- What `vfs::close` leaves of a file with its last reference. -/
def FileHandle.released : FileHandle := ⟨0, .none, false, false, 0, 0, 0, 0, 0⟩

theorem FileHandle.not_isEnd_released (p : ℕ) (b : Bool) : ¬FileHandle.released.IsEnd p b := fun h =>
  absurd h.1 (by decide)

namespace System

def release (s : System) (fp : ℕ) : System :=
  { s with handles := Function.update s.handles fp (some .released) }

variable {s s' s'' s₀ : System} {i fp fd p : ℕ} {b : Bool} {f g : FileHandle}

structure FilesOnly (s s' : System) : Prop where
  ram : s'.ram = s.ram
  trampoline : s'.trampoline = s.trampoline
  vmaTable : s'.vmaTable = s.vmaTable
  current : s'.current = s.current
  iref : s'.iref = s.iref
  contents : s'.contents = s.contents
  slots : ∀ i, s'.taskTable i = { s.taskTable i with task := { (s.taskTable i).task with
    openFiles := (s'.taskTable i).task.openFiles } }

namespace FilesOnly

theorem refl : FilesOnly s s := ⟨rfl, rfl, rfl, rfl, rfl, rfl, fun _ => rfl⟩

theorem trans (h : FilesOnly s s') (h' : FilesOnly s' s'') : FilesOnly s s'' where
  ram := h'.ram.trans h.ram
  trampoline := h'.trampoline.trans h.trampoline
  vmaTable := h'.vmaTable.trans h.vmaTable
  current := h'.current.trans h.current
  iref := h'.iref.trans h.iref
  contents := h'.contents.trans h.contents
  slots i := by rw [h'.slots i, h.slots i]

theorem setFd (v : Option ℕ) : FilesOnly s (s.setFd i fd v) := by
  refine ⟨rfl, rfl, rfl, rfl, rfl, rfl, fun j => ?_⟩
  by_cases hj : j = i
  · subst hj
    rw [System.setFd, setProc_self]
  · rw [System.setFd, setProc_of_ne hj]

theorem proc {β : Type} {π : Proc → β} (h : FilesOnly s s')
    (hπ : ∀ p g, π { p with task := { p.task with openFiles := g } } = π p) (i : ℕ) :
    π (s'.taskTable i) = π (s.taskTable i) := by
  rw [h.slots i, hπ]

theorem keeps_modify {g : System → System} (hg : ∀ s, FilesOnly s (g s)) :
    Keeps (FilesOnly s₀) (modify g : OsM Unit) := .modify fun s h => h.trans (hg s)

theorem keeps_newFile (fp : ℕ) (f : FileHandle) : Keeps (FilesOnly s₀) (newFile fp f) := by
  intro s r s' h hok
  obtain ⟨-, rfl⟩ := newFile_ok hok
  exact h.trans ⟨rfl, rfl, rfl, rfl, rfl, rfl, fun _ => rfl⟩

theorem keeps_register (fp : ℕ) : Keeps (FilesOnly s₀) (registerFileHandle fp (-1)) := by
  intro s r s' h hok
  obtain ⟨fd, -, -, rfl⟩ := registerFileHandle_any hok
  exact h.trans (.setFd _)

theorem keeps_fileDup (fp : ℕ) : Keeps (FilesOnly s₀) (fileDup fp) := by
  refine Keeps.bind .get fun s => ?_
  cases s.handles fp with
  | none => exact .throw _
  | some f =>
    dsimp only
    split
    · exact .bind (.throw _) fun _ =>
        .bind (keeps_modify fun s => ⟨rfl, rfl, rfl, rfl, rfl, rfl, fun _ => rfl⟩)
        fun _ => .pure _
    · exact .bind (keeps_modify fun s => ⟨rfl, rfl, rfl, rfl, rfl, rfl, fun _ => rfl⟩) fun _ => .pure _

theorem keeps_pipeClose (p : ℕ) (b : Bool) : Keeps (FilesOnly s₀) (pipeClose p b) := by
  refine Keeps.bind .get fun s => ?_
  cases s.pipes p with
  | none => exact .throw _
  | some e => exact keeps_modify fun s => ⟨rfl, rfl, rfl, rfl, rfl, rfl, fun _ => rfl⟩

theorem keeps_closeEnds (f : FileHandle) : Keeps (FilesOnly s₀) (closeEnds f) := by
  have hread : Keeps (FilesOnly s₀) (if f.readable then pipeClose f.pipe false else pure ()) :=
    .ite (keeps_pipeClose _ _) (.pure _)
  rw [closeEnds]
  dsimp only
  split
  · exact .bind (keeps_pipeClose _ _) fun _ => hread
  · exact hread

theorem keeps_vfsClose (fp : ℕ) : Keeps (FilesOnly s₀) (vfsClose fp) := by
  refine Keeps.bind .get fun s => ?_
  cases s.handles fp with
  | none => exact .throw _
  | some f =>
    have hclose : Keeps (FilesOnly s₀) (if f.ref - 1 > 0 then
        modify fun s => { s with
          handles := Function.update s.handles fp (some { f with ref := f.ref - 1 }) }
      else do
        modify fun s => { s with
          handles := Function.update s.handles fp (some ⟨0, .none, false, false, 0, 0, 0, 0, 0⟩) }
        if f.type = .pipe then closeEnds f : OsM Unit) :=
      .ite (keeps_modify fun s => ⟨rfl, rfl, rfl, rfl, rfl, rfl, fun _ => rfl⟩)
        (.bind (keeps_modify fun s => ⟨rfl, rfl, rfl, rfl, rfl, rfl, fun _ => rfl⟩) fun _ =>
          .ite (keeps_closeEnds f) (.pure _))
    dsimp only
    split
    · exact .bind (.throw _) fun _ => hclose
    · exact hclose

theorem keeps_closeFiles (me : ℕ) (fds : List ℕ) : Keeps (FilesOnly s₀) (closeFiles me fds) := by
  induction fds with
  | nil => exact .pure ()
  | cons fd fds ih =>
    refine Keeps.bind .get fun s => ?_
    cases (s.taskTable me).task.openFiles fd with
    | none => exact ih
    | some fp =>
      exact .bind (keeps_vfsClose fp) fun _ => .bind (keeps_modify fun s => .setFd none) fun _ => ih

theorem sysOpenat {found : Option FoundInode} {flags : ℕ} {r : ℤ}
    (h : sysOpenat fp found flags s = .ok (r, s')) : FilesOnly s s' := by
  have hkeeps : Keeps (FilesOnly s) (StartOS.sysOpenat fp found flags) := by
    refine .bind ?_ fun v => ?_
    · cases found with
      | none => exact .pure _
      | some ip => exact .bind (keeps_newFile _ _) fun _ => .pure _
    · cases v with
      | none => exact .pure _
      | some fp => exact keeps_register fp
  exact hkeeps .refl h

theorem sysDup {x r : ℤ} (h : sysDup x s = .ok (r, s')) : FilesOnly s s' := by
  unfold StartOS.sysDup at h
  obtain ⟨v, s₁, hv, h₁⟩ := bind_eq_ok.mp h
  obtain ⟨rfl, -⟩ := fileByfd_ok hv
  cases v with
  | none =>
    cases h₁
    exact .refl
  | some fp =>
    obtain ⟨fp', s₂, hdup, hreg⟩ := bind_eq_ok.mp h₁
    exact keeps_register _ (keeps_fileDup fp .refl hdup) hreg

theorem createPipe {f0 f1 pipe : ℕ} {v : ℤ × ℤ} (h : createPipe f0 f1 pipe s = .ok (v, s')) :
    FilesOnly s s' := by
  have hkeeps : Keeps (FilesOnly s) (StartOS.createPipe f0 f1 pipe) :=
    .bind (keeps_newFile _ _) fun _ => .bind (keeps_newFile _ _) fun _ =>
      .bind (keeps_modify fun s => ⟨rfl, rfl, rfl, rfl, rfl, rfl, fun _ => rfl⟩) fun _ =>
      .bind (keeps_register _) fun _ => .bind (keeps_register _) fun _ => .pure _
  exact hkeeps .refl h

end FilesOnly

/-- An end that a file is of is open, and it is the only end of the file and the file the only one
of the end. -/
structure EndsOpen (s : System) : Prop where
  isOpen : ∀ fp f p b, s.handles fp = some f → f.IsEnd p b →
    ∃ e, s.pipes p = some e ∧ e.isOpen b = true
  one : ∀ fp f p, s.handles fp = some f → f.IsEnd p true → ¬f.IsEnd p false
  inj : ∀ fp fq f g p b, s.handles fp = some f → s.handles fq = some g → f.IsEnd p b →
    g.IsEnd p b → fp = fq

namespace EndsOpen

theorem congr (h : s.EndsOpen) (hh : s'.handles = s.handles) (hp : s'.pipes = s.pipes) :
    s'.EndsOpen := by
  constructor
  · rw [hh, hp]
    exact h.isOpen
  · rw [hh]
    exact h.one
  · rw [hh]
    exact h.inj

/-- A file is stored that is no end other than those that it was. -/
theorem setHandle (h : s.EndsOpen)
    (hends : ∀ p b, g.IsEnd p b → ∃ f, s.handles fp = some f ∧ f.IsEnd p b) :
    ({ s with handles := Function.update s.handles fp (some g) } : System).EndsOpen := by
  have hold : ∀ fq f p b, Function.update s.handles fp (some g) fq = some f → f.IsEnd p b →
      ∃ f', s.handles fq = some f' ∧ f'.IsEnd p b := by
    intro fq f p b hf hend
    by_cases hq : fq = fp
    · rw [hq, Function.update_self] at hf
      cases hf
      exact hq ▸ hends p b hend
    · rw [Function.update_of_ne hq] at hf
      exact ⟨f, hf, hend⟩
  constructor
  · intro fq f p b hf hend
    obtain ⟨f', hf', hend'⟩ := hold fq f p b hf hend
    exact h.isOpen fq f' p b hf' hend'
  · intro fq f p hf hend hread
    obtain ⟨f', hf', hend'⟩ := hold fq f p true hf hend
    obtain ⟨f'', hf'', hread'⟩ := hold fq f p false hf hread
    cases hf'.symm.trans hf''
    exact h.one fq f' p hf' hend' hread'
  · intro fq fr f g' p b hf hg hend hend'
    obtain ⟨f', hf', hfend⟩ := hold fq f p b hf hend
    obtain ⟨g'', hg', hgend⟩ := hold fr g' p b hg hend'
    exact h.inj fq fr f' g'' p b hf' hg' hfend hgend

theorem setRef (h : s.EndsOpen) (hf : s.handles fp = some f) (r : ℤ) :
    ({ s with handles := Function.update s.handles fp (some { f with ref := r }) } :
    System).EndsOpen :=
  h.setHandle fun _ _ hend => ⟨f, hf, hend⟩

theorem release (h : s.EndsOpen) (fp : ℕ) : (s.release fp).EndsOpen :=
  h.setHandle fun p b hg => absurd hg (FileHandle.not_isEnd_released p b)

theorem close (h : s.EndsOpen) (hf : s.handles fp = some f) (hend : f.IsEnd p b)
    {e' : Option PipeEnds}
    (he : ∀ e, s.pipes p = some e → e.isOpen (!b) = true →
    ∃ e₁, e' = some e₁ ∧ e₁.isOpen (!b) = true) :
    ({ s.release fp with pipes := Function.update s.pipes p e' } : System).EndsOpen := by
  have hclear := h.release fp
  refine ⟨fun fq g q c hg hg' => ?_, hclear.one, hclear.inj⟩
  obtain ⟨e, hpe, hopen⟩ := hclear.isOpen fq g q c hg hg'
  have hg₀ : Function.update s.handles fp (some .released) fq = some g := hg
  by_cases hq : q = p
  · subst hq
    have hne : fq ≠ fp := by
      rintro rfl
      rw [Function.update_self] at hg₀
      cases hg₀
      exact FileHandle.not_isEnd_released _ _ hg'
    rw [Function.update_of_ne hne] at hg₀
    have hc : c = !b := by
      by_contra hcb
      have : c = b := by cases b <;> cases c <;> simp_all
      subst this
      exact hne (h.inj fq fp g f q c hg₀ hf hg' hend)
    subst hc
    obtain ⟨e₁, rfl, he₁⟩ := he e hpe hopen
    exact ⟨e₁, Function.update_self .., he₁⟩
  · exact ⟨e, (Function.update_of_ne hq ..).trans hpe, hopen⟩

theorem pipeClose_of_some {e : PipeEnds} (h : s.pipes p = some e) (b : Bool) :
    ∃ e', pipeClose p b s = .ok ((), { s with pipes := Function.update s.pipes p e' }) ∧
      (e.isOpen (!b) = true → ∃ e₁, e' = some e₁ ∧ e₁.isOpen (!b) = true) := by
  unfold pipeClose
  rw [get_bind, h]
  refine ⟨_, rfl, fun hopen => ?_⟩
  cases b with
  | false =>
    have hw : e.writeopen = true := hopen
    exact ⟨{ e with readopen := false }, if_pos (Or.inr hw), hw⟩
  | true =>
    have hr : e.readopen = true := hopen
    exact ⟨{ e with writeopen := false }, if_pos (Or.inl hr), hr⟩

theorem vfsClose (h : s.EndsOpen) (hf : s.handles fp = some f) (href : 1 ≤ f.ref) :
    ∃ s', vfsClose fp s = .ok ((), s') ∧ s'.EndsOpen := by
  unfold StartOS.vfsClose
  rw [get_bind, hf]
  dsimp only
  rw [if_neg (by omega)]
  by_cases hmore : f.ref - 1 > 0
  · rw [if_pos hmore]
    exact ⟨_, rfl, h.setRef hf _⟩
  rw [if_neg hmore, modify_bind]
  by_cases htype : f.type = .pipe
  swap
  · rw [if_neg htype]
    exact ⟨_, rfl, h.release fp⟩
  rw [if_pos htype]
  unfold closeEnds
  have hone : ∀ b, f.IsEnd f.pipe b →
      ∃ s', pipeClose f.pipe b (s.release fp) = .ok ((), s') ∧ s'.EndsOpen := by
    intro b hend
    obtain ⟨e, hpe, -⟩ := h.isOpen fp f f.pipe b hf hend
    have hpe' : (s.release fp).pipes f.pipe = some e := hpe
    obtain ⟨e', hrun, he'⟩ := pipeClose_of_some hpe' b
    refine ⟨_, hrun, h.close hf hend fun e₂ hpe₂ hopen => he' ?_⟩
    cases hpe.symm.trans hpe₂
    exact hopen
  change ∃ s', (if f.writable = true then _ else _ : OsM Unit) (s.release fp) = _ ∧ _
  cases hw : f.writable with
  | true =>
    have hread : f.readable = false := by
      by_contra hr
      exact h.one fp f f.pipe hf ⟨htype, rfl, hw⟩ ⟨htype, rfl, by simpa using hr⟩
    obtain ⟨s', hrun, hs'⟩ := hone true ⟨htype, rfl, hw⟩
    rw [if_pos rfl, bind_of_ok hrun, hread]
    exact ⟨s', rfl, hs'⟩
  | false =>
    cases hr : f.readable with
    | true => exact hone false ⟨htype, rfl, hr⟩
    | false => exact ⟨_, rfl, h.release fp⟩

theorem closeFiles {me : ℕ} (hme : me < ntask) (fds : List ℕ) :
    ∀ {s : System}, s.EndsOpen → (∀ fp, s.excess fp = 0) → (∀ fd ∈ fds, fd < nofile) →
      ∃ s', closeFiles me fds s = .ok ((), s') := by
  induction fds with
  | nil => exact fun _ _ _ => ⟨_, rfl⟩
  | cons fd fds ih =>
    intro s h hex hlt
    have hlt' : ∀ x ∈ fds, x < nofile := fun x hx => hlt x (List.mem_cons_of_mem fd hx)
    unfold StartOS.closeFiles
    rw [get_bind]
    cases hfd : (s.taskTable me).task.openFiles fd with
    | none => exact ih h hex hlt'
    | some fp =>
      have hslot : s.slot (me, fd) = some fp := hfd
      have hin := mem_descriptors hme (hlt fd List.mem_cons_self)
      obtain ⟨hopen, href⟩ := counted_of_excess hex
      obtain ⟨f, hf⟩ := Option.isSome_iff_exists.mp (hopen _ hin fp hslot)
      have hpos : 1 ≤ f.ref := by
        have : 0 < s.refs fp := Slots.count_pos hin hslot
        have := href fp f hf
        omega
      obtain ⟨s₁, hrun, h₁⟩ := h.vfsClose hf hpos
      have hslot₁ : s₁.slot (me, fd) = some fp := by
        rw [← hslot]
        exact congrFun ((vfsClose_moved (t := me + 1) hrun).other me (by omega)) fd
      have hmoved := (vfsClose_moved (t := me) hrun).trans
        (.empty hme (hlt fd List.mem_cons_self) hslot₁)
      rw [neg_add_cancel] at hmoved
      obtain ⟨s', hrest⟩ := ih (s := s₁.setFd me fd none) (h₁.congr rfl rfl)
        (fun x => by rw [hmoved.excess, hex]; rfl) hlt'
      exact ⟨s', (bind_of_ok hrun).trans hrest⟩

section Calls

theorem sysOpenat (h : s.EndsOpen) {found : Option FoundInode} {flags : ℕ} {r : ℤ}
    (hok : sysOpenat fp found flags s = .ok (r, s')) : s'.EndsOpen := by
  unfold StartOS.sysOpenat at hok
  obtain ⟨v, s₁, hopen, hreg⟩ := bind_eq_ok.mp hok
  cases found with
  | none =>
    cases hopen
    cases hreg
    exact h
  | some ip =>
    obtain ⟨⟨⟩, s₂, hnew, hopen⟩ := bind_eq_ok.mp hopen
    cases hopen
    obtain ⟨-, rfl⟩ := newFile_ok hnew
    obtain ⟨fd, -, -, rfl⟩ := registerFileHandle_any hreg
    exact (h.setHandle fun _ _ hg => absurd hg.1 FileType.noConfusion).congr rfl rfl

theorem keeps_fileDup (fp : ℕ) : Keeps EndsOpen (fileDup fp) := by
  intro s r s' h hok
  unfold fileDup at hok
  rw [get_bind] at hok
  cases hf : s.handles fp with
  | none =>
    rw [hf] at hok
    cases hok
  | some f =>
    rw [hf] at hok
    dsimp only at hok
    split at hok
    · cases hok
    · cases hok
      exact h.setRef hf _

theorem sysDup (h : s.EndsOpen) {x r : ℤ} (hok : sysDup x s = .ok (r, s')) : s'.EndsOpen := by
  unfold StartOS.sysDup at hok
  obtain ⟨v, s₁, hv, h₁⟩ := bind_eq_ok.mp hok
  obtain ⟨rfl, -⟩ := fileByfd_ok hv
  cases v with
  | none =>
    cases h₁
    exact h
  | some fp =>
    obtain ⟨fp', s₂, hdup, hreg⟩ := bind_eq_ok.mp h₁
    obtain ⟨fd, -, -, rfl⟩ := registerFileHandle_any hreg
    exact (keeps_fileDup fp h hdup).congr rfl rfl

theorem createPipe (h : s.EndsOpen) {f0 f1 pipe : ℕ} {v : ℤ × ℤ} (hfresh : s.pipes pipe = none)
    (hok : createPipe f0 f1 pipe s = .ok (v, s')) : s'.EndsOpen := by
  unfold StartOS.createPipe at hok
  obtain ⟨⟨⟩, s₁, hnew₀, h₁⟩ := bind_eq_ok.mp hok
  obtain ⟨⟨⟩, s₂, hnew₁, h₂⟩ := bind_eq_ok.mp h₁
  rw [modify_bind] at h₂
  obtain ⟨fd0, s₄, hreg₀, h₄⟩ := bind_eq_ok.mp h₂
  obtain ⟨fd1, s₅, hreg₁, h₅⟩ := bind_eq_ok.mp h₄
  cases h₅
  obtain ⟨hnone₀, rfl⟩ := newFile_ok hnew₀
  obtain ⟨hnone₁, rfl⟩ := newFile_ok hnew₁
  obtain ⟨a, -, -, rfl⟩ := registerFileHandle_any hreg₀
  obtain ⟨b, -, -, rfl⟩ := registerFileHandle_any hreg₁
  have hne : f1 ≠ f0 := by
    rintro rfl
    dsimp only at hnone₁
    rw [Function.update_self] at hnone₁
    cases hnone₁
  have hends : ∀ fq g q c, Function.update (Function.update s.handles f0
      (some ⟨1, .pipe, true, false, 0, pipe, 0, 0, 0⟩)) f1
      (some ⟨1, .pipe, false, true, 0, pipe, 0, 0, 0⟩) fq = some g → g.IsEnd q c →
      (q = pipe ∧ fq = (if c then f1 else f0)) ∨ (q ≠ pipe ∧ s.handles fq = some g) := by
    intro fq g q c hg hend
    by_cases hq₁ : fq = f1
    · rw [hq₁, Function.update_self] at hg
      cases hg
      obtain ⟨-, rfl, hc⟩ := hend
      cases c with
      | true => exact Or.inl ⟨rfl, hq₁⟩
      | false => cases hc
    rw [Function.update_of_ne hq₁] at hg
    by_cases hq₀ : fq = f0
    · rw [hq₀, Function.update_self] at hg
      cases hg
      obtain ⟨-, rfl, hc⟩ := hend
      cases c with
      | true => cases hc
      | false => exact Or.inl ⟨rfl, hq₀⟩
    rw [Function.update_of_ne hq₀] at hg
    refine Or.inr ⟨?_, hg⟩
    rintro rfl
    obtain ⟨e, he, -⟩ := h.isOpen fq g q c hg hend
    cases hfresh.symm.trans he
  refine EndsOpen.congr (s := { s with
    handles := Function.update (Function.update s.handles f0
      (some ⟨1, .pipe, true, false, 0, pipe, 0, 0, 0⟩)) f1
      (some ⟨1, .pipe, false, true, 0, pipe, 0, 0, 0⟩)
    pipes := Function.update s.pipes pipe (some ⟨true, true⟩) }) ⟨?_, ?_, ?_⟩ rfl rfl
  · intro fq g q c hg hend
    rcases hends fq g q c hg hend with ⟨rfl, -⟩ | ⟨hq, hg'⟩
    · exact ⟨⟨true, true⟩, Function.update_self .., by cases c <;> rfl⟩
    · obtain ⟨e, he, hopen⟩ := h.isOpen fq g q c hg' hend
      exact ⟨e, (Function.update_of_ne hq ..).trans he, hopen⟩
  · intro fq g q hg hend hread
    rcases hends fq g q true hg hend with ⟨rfl, hfq⟩ | ⟨hq, hg'⟩
    · rcases hends fq g q false hg hread with ⟨-, hfq'⟩ | ⟨hq, -⟩
      · exact hne (hfq.symm.trans hfq')
      · exact hq rfl
    · exact h.one fq g q hg' hend hread
  · intro fq fr f g q c hf hg hend hend'
    rcases hends fq f q c hf hend with ⟨rfl, hfq⟩ | ⟨hq, hf'⟩
    · rcases hends fr g q c hg hend' with ⟨-, hfr⟩ | ⟨hq, -⟩
      · exact hfq.trans hfr.symm
      · exact absurd rfl hq
    · rcases hends fr g q c hg hend' with ⟨hq', -⟩ | ⟨-, hg'⟩
      · exact absurd hq' hq
      · exact h.inj fq fr f g q c hf' hg' hend hend'

end Calls

end EndsOpen

end System

end StartOS
