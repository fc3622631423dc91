import Mathlib.Data.List.TakeWhile
import AdvancedOperatingSystems.DemandPaging.FirstTouch
import AdvancedOperatingSystems.DemandPaging.Frames
import AdvancedOperatingSystems.DemandPaging.Tracking

/-!
# The file of a program

`namei` of `fs.c` with the directories it walks. `exec` resolves a path once and keeps the last
component of it as `p->name`; the page-fault handler resolves that name again, from the
directory the process is in by then.
-/

namespace AdvancedOperatingSystems.DemandPaging

open Foundations Riscv Riscv.PageTable

abbrev DIRSIZ : ℕ := 14

abbrev ROOTINO : ℕ := 1

structure Dirent where
  inum : ℕ
  name : Path

abbrev sizeofDirent : ℕ := 16

def Dirent.ofBytes (buf : ℕ → Byte) : Dirent where
  inum := field buf 0 2
  name := ((List.range DIRSIZ).map fun i => Char.ofNat (buf (2 + i)).toNat).takeWhile
    fun ch => ch ≠ Char.ofNat 0

/-- An inode: whether it is a directory, and what `readi` reads of it. -/
structure Inode where
  isDir : Bool
  data : File

abbrev FileSystem := ℕ → Inode

/-- The entries of a directory, whose size is a multiple of that of an entry. -/
def Inode.dirents (dp : Inode) : List Dirent :=
  (List.range (dp.data.size / sizeofDirent)).map fun i =>
    .ofBytes fun j => dp.data.byte (sizeofDirent * i + j)

/-- `dirlookup` in a directory. -/
def Inode.dirlookup (dp : Inode) (name : Path) : Option ℕ :=
  (dp.dirents.find? fun de => de.inum ≠ 0 ∧ de.name = name).map Dirent.inum

/-- `skipelem`: the next element of the path, cut to `DIRSIZ`, and what follows it. -/
def skipelem (path : Path) : Option (Path × Path) :=
  match path.dropWhile (· = '/') with
  | [] => none
  | ch :: rest =>
    let s := ch :: rest
    some ((s.takeWhile (· ≠ '/')).take DIRSIZ, (s.dropWhile (· ≠ '/')).dropWhile (· = '/'))

theorem length_dropWhile_le {α : Type*} (p : α → Bool) (l : List α) :
    (l.dropWhile p).length ≤ l.length :=
  (List.dropWhile_suffix p).length_le

theorem skipelem_length {path name rest : Path} (h : skipelem path = some (name, rest)) :
    rest.length < path.length := by
  unfold skipelem at h
  have hle := length_dropWhile_le (· = '/') path
  cases hdrop : path.dropWhile (· = '/') with
  | nil => simp [hdrop] at h
  | cons ch tail =>
    have hslash : ch ≠ '/' := by
      have hne : path.dropWhile (· = '/') ≠ [] := by simp [hdrop]
      simpa [hdrop] using List.head_dropWhile_not (· = '/') hne
    simp only [hdrop, Option.some.injEq, Prod.mk.injEq] at h
    rw [hdrop, List.length_cons] at hle
    have h₁ := length_dropWhile_le (· = '/') ((ch :: tail).dropWhile (· ≠ '/'))
    have h₂ := length_dropWhile_le (· ≠ '/') tail
    rw [List.dropWhile_cons_of_pos (by simpa using hslash)] at h₁ h
    rw [← h.2]
    omega

/-- The loop of `namex`. -/
def namex (fs : FileSystem) (ip : ℕ) (path : Path) : Option ℕ :=
  match _h : skipelem path with
  | none => some ip
  | some (name, rest) =>
    if (fs ip).isDir then
      match (fs ip).dirlookup name with
      | none => none
      | some next => namex fs next rest
    else none
termination_by path.length
decreasing_by exact skipelem_length ‹_›

/-- `namei` in the working directory: the number of the inode. -/
def namei (fs : FileSystem) (cwd : ℕ) (path : Path) : Option ℕ :=
  namex fs (if path.head? = some '/' then ROOTINO else cwd) path

/-- The files that `namei` finds. -/
def files (fs : FileSystem) (cwd : ℕ) (path : Path) : Option File :=
  (namei fs cwd path).map fun ip => (fs ip).data

/-- The inode that the page-fault handler reads the program from. -/
def lookupProgram (fs : FileSystem) (cwd : ℕ) (name : Path) (elf : ℕ → Byte) : Except Panic ℕ :=
  match namei fs cwd name with
  | none => .error "File not Found\n"
  | some ip =>
    let elf := Elfhdr.ofBytes (readi (fs ip).data 0 sizeofElfhdr elf).2
    if elf.magic ≠ ELF_MAGIC then .error "Invalid ELF file\n" else .ok ip

/-- The handler panics where the look-up does, and else maps a page of the inode it finds. -/
theorem loadFromFile_lookup {fs : FileSystem} {cwd : ℕ} {t : Trap} {c : Cpu}
    (ht : t.namei = files fs cwd) :
    loadFromFile t c = lookupProgram fs cwd c.proc.name t.elf >>= fun ip =>
      loadFromFile { t with namei := fun _ => some (fs ip).data } c := by
  unfold lookupProgram
  cases hfound : namei fs cwd c.proc.name with
  | none =>
    have hnone : t.namei c.proc.name = none := by rw [ht, files, hfound, Option.map_none]
    unfold loadFromFile
    rw [hnone]
    rfl
  | some ip =>
    have hsome : t.namei c.proc.name = some (fs ip).data := by
      rw [ht, files, hfound, Option.map_some]
    simp only
    split_ifs with hmagic
    · unfold loadFromFile
      rw [hsome]
      simp only [if_pos hmagic]
      rfl
    · rw [ok_bind]
      unfold loadFromFile
      rw [hsome]
      rfl

section Names

variable {fs : FileSystem} {cwd : ℕ}

def lastElement (path : Path) : Path := (path.reverse.takeWhile fun ch => ch ≠ '/').reverse

theorem progName_eq (path : Path) : progName path = (lastElement path).take 15 := rfl

theorem lastElement_no_slash {path : Path} {ch : Char} (h : ch ∈ lastElement path) : ch ≠ '/' := by
  have := List.mem_takeWhile_imp (List.mem_reverse.mp h)
  simpa using this

theorem namex_nil (ip : ℕ) : namex fs ip [] = some ip := by
  unfold namex
  rfl

theorem skipelem_name {name : Path} (hne : name ≠ []) (hslash : ∀ ch ∈ name, ch ≠ '/') :
    skipelem name = some (name.take DIRSIZ, []) := by
  obtain ⟨ch, rest, rfl⟩ := List.exists_cons_of_ne_nil hne
  have hch : ch ≠ '/' := hslash ch List.mem_cons_self
  have htake : (ch :: rest).takeWhile (· ≠ '/') = ch :: rest := by
    rw [List.takeWhile_eq_self_iff]
    intro x hx
    simpa using hslash x hx
  have hdrop : (ch :: rest).dropWhile (· ≠ '/') = [] := by
    rw [List.dropWhile_eq_nil_iff]
    intro x hx
    simpa using hslash x hx
  unfold skipelem
  rw [List.dropWhile_cons_of_neg (by simpa using hch)]
  simp only [htake, hdrop, List.dropWhile_nil]

theorem namei_name {name : Path} (hslash : ∀ ch ∈ name, ch ≠ '/') :
    namei fs cwd name = if name = [] then some cwd
      else if (fs cwd).isDir then (fs cwd).dirlookup (name.take DIRSIZ) else none := by
  by_cases hne : name = []
  · subst hne
    exact namex_nil cwd
  · have hhead : name.head? ≠ some '/' := by
      intro h
      exact hslash '/' (List.mem_of_mem_head? h) rfl
    rw [namei, if_neg hhead, if_neg hne, namex]
    split
    next hskip => simp [skipelem_name hne hslash] at hskip
    next name' rest hskip =>
      rw [skipelem_name hne hslash] at hskip
      cases hskip
      simp only [namex_nil]
      cases (fs cwd).dirlookup (name.take DIRSIZ) <;> rfl

theorem namei_progName {path : Path} : namei fs cwd (progName path) =
    if lastElement path = [] then some cwd
    else if (fs cwd).isDir then (fs cwd).dirlookup ((lastElement path).take DIRSIZ) else none := by
  have hslash : ∀ ch ∈ progName path, ch ≠ '/' := fun ch hch =>
    lastElement_no_slash (List.mem_of_mem_take (progName_eq path ▸ hch))
  have hnil : progName path = [] ↔ lastElement path = [] := by
    rw [progName_eq, List.take_eq_nil_iff]
    simp
  rw [namei_name hslash]
  simp only [hnil]
  rw [progName_eq, List.take_take]
  rfl

end Names

section Handler

variable {c c' : Cpu} {t : Trap}

theorem growHeap_name (h : growHeap c = .ok c') : c'.proc.name = c.proc.name := by
  obtain ⟨⟨sz, s⟩, -, h⟩ := bind_ok_iff.mp h
  cases h
  rfl

theorem retrievePageFromDisk_name {uvaddr : ℕ} (h : retrievePageFromDisk uvaddr c = .ok c') :
    c'.proc.name = c.proc.name := by
  rw [retrievePageFromDisk] at h
  generalize retrieveScan uvaddr c.proc.heapTracker = scan at h
  obtain ⟨found, tracker⟩ := scan
  cases found with
  | none =>
    cases h
    rfl
  | some block => rw [retrieveBlock_proc h]

theorem makeRoom_name (h : makeRoom c = .ok c') : c'.proc.name = c.proc.name := by
  unfold makeRoom at h
  split_ifs at h
  · obtain ⟨c₁, h₁, h⟩ := bind_ok_iff.mp h
    cases h
    unfold evictPageToDisk at h₁
    cases hv : victimPageIndex c.proc.heapTracker with
    | none =>
      simp only [hv] at h₁
      cases h₁
    | some v =>
      simp only [hv] at h₁
      cases hk : c.kernel.memory.kalloc with
      | none =>
        simp only [hk] at h₁
        cases h₁
      | some q =>
        simp only [hk] at h₁
        obtain ⟨s, -, h₁⟩ := bind_ok_iff.mp h₁
        cases h₁
        rfl
  · cases h
    rfl

theorem pageFaultHandler_name (h : pageFaultHandler t c = .ok c') :
    c'.proc.name = c.proc.name := by
  cases hk : pageIndex c.proc.heapTracker t.alignedAddr with
  | none => rw [pageFaultHandler_proc hk h]
  | some k =>
    unfold pageFaultHandler at h
    simp only [hk] at h
    obtain ⟨c₁, hroom, h⟩ := bind_ok_iff.mp h
    by_cases hloaded : (c₁.proc.heapTracker k).loaded = true
    · simp only [if_pos hloaded] at h
      obtain ⟨c₂, hret, h⟩ := bind_ok_iff.mp h
      cases h
      exact (retrievePageFromDisk_name hret).trans (makeRoom_name hroom)
    · simp only [if_neg hloaded] at h
      obtain ⟨c₂, hgrow, h⟩ := bind_ok_iff.mp h
      cases h
      exact (growHeap_name hgrow).trans (makeRoom_name hroom)

theorem access_name {a : Access} {b : Option Byte} (h : access a c = .ok (b, c')) :
    c'.proc.name = c.proc.name := by
  obtain ⟨c₁, hfault, hattempt⟩ := access_cases h
  have hname : c₁.proc.name = c.proc.name := by
    rcases hfault with rfl | ⟨-, hfault⟩
    · rfl
    · exact pageFaultHandler_name hfault
  rcases hattempt with rfl | ⟨b', hattempt⟩
  · exact hname
  · rcases attempt_cases hattempt with rfl | ⟨e, data, -, -, rfl⟩
    · exact hname
    · exact hname

end Handler

/-- A process, the directory it is in and the file system. -/
structure Located where
  fs : FileSystem
  cwd : ℕ
  cpu : Cpu

/-- What a process does to memory, with the former bytes of the stack of the handler. -/
structure Touching where
  op : Op
  va : ℕ
  elf : ℕ → Byte
  ph : ℕ → Byte

/-- Calls of `chdir`, changes of the file system by others, and user accesses. -/
inductive FileEvent
  | chdir (path : Path)
  | change (fs : FileSystem)
  | touch (a : Touching)

def Located.access (s : Located) (a : Touching) : Access := ⟨a.op, a.va, files s.fs s.cwd, a.elf, a.ph⟩

/-- One event. `chdir` fails where there is no directory. -/
def fileStep (s : Located) : FileEvent → Except Panic Located
  | .chdir path =>
    match namei s.fs s.cwd path with
    | none => .ok s
    | some ip => .ok (if (s.fs ip).isDir then { s with cwd := ip } else s)
  | .change fs => .ok { s with fs := fs }
  | .touch a => do
    let (_, c) ← access (s.access a) s.cpu
    return { s with cpu := c }

/-- The access faults, and the handler maps a page of the program file. -/
def FileFault (a : Access) (c : Cpu) : Prop :=
  attempt a c = none ∧ pageIndex c.proc.heapTracker a.pageAddr = none ∧
    cowFault a.trap c = .ok false

theorem FileFault.handler {a : Access} {c : Cpu} (h : FileFault a c) :
    pageFaultHandler a.trap c = loadFromFile a.trap c := by
  obtain ⟨-, hk, hcow⟩ := h
  unfold pageFaultHandler
  rw [trap_alignedAddr, hk]
  simp only [hcow, ok_bind]
  rfl

section Runs

variable (ino : ℕ)

def FileStays (s : Located) : FileEvent → Prop
  | .change fs => fs ino = s.fs ino
  | _ => True

/-- A fault for a page of the program file reads the inode, and the look-up does not panic. -/
def ReadsFile (s : Located) : FileEvent → Prop
  | .touch a => FileFault (s.access a) s.cpu →
      lookupProgram s.fs s.cwd s.cpu.proc.name a.elf = .ok ino
  | _ => True

/-- Where the process faults for a page of the program file, its working directory holds the
inode under the name, or there is no name and the directory is the inode. -/
def LeadsBack (name : Path) (s : Located) : FileEvent → Prop
  | .touch a => FileFault (s.access a) s.cpu →
      if name = [] then s.cwd = ino
      else (s.fs s.cwd).isDir ∧ (s.fs s.cwd).dirlookup (name.take DIRSIZ) = some ino
  | _ => True

variable {ino} {path : Path} {s t : Located} {e : FileEvent}

/-- The inode is a program file, which the process has been loaded from. -/
structure Loaded (ino : ℕ) (path : Path) (s : Located) : Prop where
  name : s.cpu.proc.name = progName path
  size : (s.fs ino).data.count 0 sizeofElfhdr = sizeofElfhdr
  magic : (Elfhdr.ofBytes (s.fs ino).data.byte).magic = ELF_MAGIC

theorem readi_magic {f : File} (h : f.count 0 sizeofElfhdr = sizeofElfhdr) (buf : ℕ → Byte) :
    (Elfhdr.ofBytes (readi f 0 sizeofElfhdr buf).2).magic = (Elfhdr.ofBytes f.byte).magic := by
  have h₂ : 2 < sizeofElfhdr ∧ 3 < sizeofElfhdr := by decide
  simp [Elfhdr.ofBytes, readi, h, field, h₂]

/-- A successful call of `exec` has read the header of a program. -/
theorem exec_accepts {argv : List (List Byte)} {find : Path → Option File} {k k' : Kernel}
    {p p' : Proc} {argc : ℕ} (h : p.exec path argv find k = .ok (some argc, k', p')) :
    p'.name = progName path ∧ ∃ f, find path = some f ∧
      f.count 0 sizeofElfhdr = sizeofElfhdr ∧ (Elfhdr.ofBytes f.byte).magic = ELF_MAGIC := by
  unfold Proc.exec at h
  cases hf : find path with
  | none =>
    simp only [hf] at h
    cases h
  | some f =>
    simp only [hf] at h
    split_ifs at h with hgot hmagic
    · cases h
    · cases h
    · rw [not_not] at hgot hmagic
      obtain ⟨⟨pg, m⟩, -, h⟩ := bind_ok_iff.mp h
      cases pg with
      | none => cases h
      | some pg =>
        obtain ⟨⟨argc', sz, m, pt⟩, -, h⟩ := bind_ok_iff.mp h
        cases argc' with
        | none =>
          obtain ⟨m, -, h⟩ := bind_ok_iff.mp h
          cases h
        | some argc' =>
          cases hold : p.pagetable with
          | none =>
            simp only [hold] at h
            cases h
          | some old =>
            simp only [hold] at h
            obtain ⟨m, -, h⟩ := bind_ok_iff.mp h
            cases h
            exact ⟨rfl, f, rfl, hgot, (readi_magic hgot _).symm.trans hmagic⟩

theorem Loaded.step (h : Loaded ino path s) (hstays : FileStays ino s e)
    (hstep : fileStep s e = .ok t) : Loaded ino path t := by
  cases e with
  | chdir path' =>
    unfold fileStep at hstep
    cases hfound : namei s.fs s.cwd path' with
    | none =>
      simp only [hfound] at hstep
      cases hstep
      exact h
    | some ip =>
      simp only [hfound] at hstep
      cases hstep
      split_ifs
      · exact ⟨h.name, h.size, h.magic⟩
      · exact h
  | change fs =>
    cases hstep
    have hsame : fs ino = s.fs ino := hstays
    refine ⟨h.name, ?_, ?_⟩
    · show (fs ino).data.count 0 sizeofElfhdr = _
      rw [hsame]
      exact h.size
    · show (Elfhdr.ofBytes (fs ino).data.byte).magic = _
      rw [hsame]
      exact h.magic
  | touch a =>
    obtain ⟨⟨b, c⟩, haccess, hstep⟩ := bind_ok_iff.mp hstep
    cases hstep
    exact ⟨(access_name haccess).trans h.name, h.size, h.magic⟩

theorem Loaded.lookup_iff (h : Loaded ino path s) (elf : ℕ → Byte) :
    lookupProgram s.fs s.cwd s.cpu.proc.name elf = .ok ino ↔
      namei s.fs s.cwd (progName path) = some ino := by
  unfold lookupProgram
  rw [h.name]
  cases hfound : namei s.fs s.cwd (progName path) with
  | none => simp
  | some ip =>
    constructor
    · intro hlookup
      simp only at hlookup
      split_ifs at hlookup
      cases hlookup
      rfl
    · rintro hip
      cases hip
      simp only
      rw [if_neg (not_not.mpr ((readi_magic h.size elf).trans h.magic))]

theorem Loaded.readsFile_iff (h : Loaded ino path s) :
    ReadsFile ino s e ↔ LeadsBack ino (lastElement path) s e := by
  cases e with
  | chdir path' => exact Iff.rfl
  | change fs => exact Iff.rfl
  | touch a =>
    unfold ReadsFile LeadsBack
    apply imp_congr_right
    intro _
    rw [h.lookup_iff, namei_progName]
    split_ifs with hname hdir
    · simp
    · simp [hdir]
    · simp [hdir]

/-- While the file that `exec` has read is there, the faults of the process read it if and only
if at each of them the working directory leads back to it. -/
theorem program_file_read_iff {fs : FileSystem} {cwd : ℕ} {argv : List (List Byte)} {k : Kernel}
    {p : Proc} {argc : ℕ} {c : Cpu} (hfound : namei fs cwd path = some ino)
    (hexec : p.exec path argv (files fs cwd) k = .ok (some argc, c.kernel, c.proc))
    (es : List FileEvent) (hstays : Guarded fileStep (FileStays ino) ⟨fs, cwd, c⟩ es) :
    Guarded fileStep (ReadsFile ino) ⟨fs, cwd, c⟩ es ↔
      Guarded fileStep (LeadsBack ino (lastElement path)) ⟨fs, cwd, c⟩ es := by
  have hloaded : Loaded ino path ⟨fs, cwd, c⟩ := by
    obtain ⟨hname, f, hf, hsize, hmagic⟩ := exec_accepts hexec
    rw [files, hfound] at hf
    cases hf
    exact ⟨hname, hsize, hmagic⟩
  refine guarded_congr (I := Loaded ino path) ?_ ?_ hloaded hstays
  · intro s e h _
    exact h.readsFile_iff
  · intro s e t h hdom _ hstep
    exact h.step hdom hstep

end Runs

section Sample

/-- A program with one segment, the page at address 0. -/
def segmentFile : File where
  size := 120
  byte i :=
    if i = 0 then 0x7f else if i = 1 then 0x45 else if i = 2 then 0x4c else if i = 3 then 0x46
    else if i = 32 then 64 else if i = 56 then 1 else if i = 64 then 1 else if i = 68 then 5
    else if i = 96 then 120 else if i = 105 then 16 else 0
  size_le := by decide

/-- The data of a directory with one entry. -/
def directoryFile (inum : Byte) (name : List Byte) : File where
  size := 16
  byte i := if i = 0 then inum else if i = 1 then 0 else name.getD (i - 2) 0
  size_le := by decide

/-- The file system with the program `/bin/p`. -/
def sampleFs : FileSystem := fun ip =>
  if ip = 1 then ⟨true, directoryFile 2 [98, 105, 110]⟩
  else if ip = 2 then ⟨true, directoryFile 3 [112]⟩
  else ⟨false, segmentFile⟩

/-- `/bin/p`. -/
def samplePath : Path := ['/', 'b', 'i', 'n', '/', 'p']

theorem sampleFs_entries : (sampleFs 1).dirlookup ['b', 'i', 'n'] = some 2 ∧
    (sampleFs 2).dirlookup ['p'] = some 3 ∧ (sampleFs 1).dirlookup ['p'] = none := by decide

theorem namex_cons {fs : FileSystem} {ip next : ℕ} {path name rest : Path}
    (hskip : skipelem path = some (name, rest)) (hdir : (fs ip).isDir = true)
    (hnext : (fs ip).dirlookup name = some next) : namex fs ip path = namex fs next rest := by
  rw [namex]
  split
  next hnone =>
    rw [hskip] at hnone
    cases hnone
  next name' rest' hsome =>
    rw [hskip] at hsome
    cases hsome
    simp only [hdir, if_true, hnext]

theorem samplePath_found (cwd : ℕ) : namei sampleFs cwd samplePath = some 3 := by
  have hfirst : skipelem samplePath = some (['b', 'i', 'n'], ['p']) := by decide
  have hsecond : skipelem ['p'] = some (['p'], []) := by decide
  rw [namei, if_pos (by decide), namex_cons hfirst rfl sampleFs_entries.1,
    namex_cons hsecond rfl sampleFs_entries.2.1, namex_nil]

def firstFetch : Touching := ⟨.fetch, 0, fun _ => 0, fun _ => 0⟩

theorem sample_exec : ∃ c, (sampleProc 0).exec samplePath [] (files sampleFs 1) (sampleKernel 16) =
      .ok (some 0, c.kernel, c.proc) ∧
    FileFault ((⟨sampleFs, 1, c⟩ : Located).access firstFetch) c := by
  have hany : ((sampleProc 0).exec samplePath [] (fun _ => some segmentFile)
      (sampleKernel 16)).toOption.any (fun r => r.1 = some 0 ∧ r.2.2.cowEnabled = false ∧
        pageIndex r.2.2.heapTracker 0 = none ∧
        (r.2.2.pagetable.map fun pg => pg.table.leaf 0) = some none) = true := by decide +kernel
  have hfile : files sampleFs 1 samplePath = some segmentFile := by
    rw [files, samplePath_found]
    rfl
  have hsame : (sampleProc 0).exec samplePath [] (files sampleFs 1) (sampleKernel 16) =
      (sampleProc 0).exec samplePath [] (fun _ => some segmentFile) (sampleKernel 16) := by
    unfold Proc.exec
    rw [hfile]
  cases hrun : (sampleProc 0).exec samplePath [] (fun _ => some segmentFile) (sampleKernel 16) with
  | error msg =>
    rw [hrun] at hany
    cases hany
  | ok r =>
    obtain ⟨argc, k, p⟩ := r
    rw [hrun] at hany
    obtain ⟨rfl, hcow, hindex, hleaf⟩ := of_decide_eq_true hany
    obtain ⟨pg, hpg, hleaf⟩ := Option.map_eq_some_iff.mp hleaf
    refine ⟨⟨k, p, pg.table⟩, hsame.trans hrun, ?_, ?_, ?_⟩
    · have htranslate : translate pg.table
          ((⟨sampleFs, 1, ⟨k, p, pg.table⟩⟩ : Located).access firstFetch) = none := by
        simp [translate, Located.access, firstFetch, vpn, hleaf]
      unfold attempt
      rw [htranslate]
      rfl
    · have hpage : pgrounddown 0 = 0 := by decide
      show pageIndex p.heapTracker (pgrounddown 0) = none
      rw [hpage]
      exact hindex
    · unfold cowFault
      rw [if_neg (fun h => Bool.false_ne_true (hcow.symm.trans h.1))]

/-- `exec` of `/bin/p`, after which the process goes to `/bin`. -/
theorem sample_program_file_read_iff : ∃ c,
    (sampleProc 0).exec samplePath [] (files sampleFs 1) (sampleKernel 16) =
      .ok (some 0, c.kernel, c.proc) ∧
    (Guarded fileStep (ReadsFile 3) ⟨sampleFs, 1, c⟩
        [.chdir ['/', 'b', 'i', 'n'], .touch firstFetch] ↔
      Guarded fileStep (LeadsBack 3 (lastElement samplePath)) ⟨sampleFs, 1, c⟩
        [.chdir ['/', 'b', 'i', 'n'], .touch firstFetch]) := by
  obtain ⟨c, hexec, -⟩ := sample_exec
  exact ⟨c, hexec, program_file_read_iff (samplePath_found 1) hexec _
    ⟨trivial, fun _ _ => ⟨trivial, fun _ _ => trivial⟩⟩⟩

/-- In the root directory the name `p` is that of no file. -/
theorem executed_program_not_found : ∃ c,
    (sampleProc 0).exec samplePath [] (files sampleFs 1) (sampleKernel 16) =
      .ok (some 0, c.kernel, c.proc) ∧
    pageFaultHandler ((⟨sampleFs, 1, c⟩ : Located).access firstFetch).trap c =
      .error "File not Found\n" ∧
    ¬ Guarded fileStep (ReadsFile 3) ⟨sampleFs, 1, c⟩ [.touch firstFetch] := by
  obtain ⟨c, hexec, hfault⟩ := sample_exec
  have hname : c.proc.name = progName samplePath := (exec_accepts hexec).1
  have hlast : (lastElement samplePath).take DIRSIZ = ['p'] ∧ lastElement samplePath ≠ [] := by
    decide
  have hmissing : lookupProgram sampleFs 1 c.proc.name firstFetch.elf =
      .error "File not Found\n" := by
    rw [hname]
    unfold lookupProgram
    rw [namei_progName, if_neg hlast.2, if_pos (show (sampleFs 1).isDir = true from rfl), hlast.1,
      sampleFs_entries.2.2]
  refine ⟨c, hexec, ?_, fun h => ?_⟩
  · rw [hfault.handler]
    rw [@loadFromFile_lookup sampleFs 1 _ _ rfl]
    rw [show ((⟨sampleFs, 1, c⟩ : Located).access firstFetch).trap.elf = firstFetch.elf from rfl,
      hmissing]
    rfl
  · have hread := h.1 hfault
    rw [hmissing] at hread
    cases hread

end Sample

end AdvancedOperatingSystems.DemandPaging
