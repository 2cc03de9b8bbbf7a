import Mathlib.Data.Int.Init
import PosixIntro.CString

set_option relaxedAutoImplicit false
set_option autoImplicit false

/-!
# The path of the mapped file (`shm_type.h`)

`open_mapping` and `create_mapping` append the name of the file to the working directory, in an
array on the stack. The bound that they give to `strncat` is the length of the array, and not what
is left of it.

## Main definitions

* `Path` — a path as `getcwd` returns it.
* `getcwd` — the call, on the array.
* `openMapping`, `createMapping` — the two functions.
* `PathFits` — the string that a function has built, with its zero, lies in its array.

## Main results

* `mapping_eq` — what a function builds and opens.
* `pathFits_iff` — the lengths of the working directory for which the path fits.

## Design

The memory goes on behind the array, so that writing there is possible; what a program does
afterwards is undefined, and the model goes on with the string as it is. The array is not
initialised: its contents before the call are arbitrary, and `getcwd`, which leaves them unspecified
when it fails, leaves them as they are in the model. The functions do not check `mmap`.
-/

namespace PosixIntro

namespace SharedMemory

/-- `STR_BUF`. -/
def strBuf : ℕ := 256

/-- `FILENAME`, which is `/shared_object.txt`. -/
def filename : List UInt8 :=
  [47, 115, 104, 97, 114, 101, 100, 95, 111, 98, 106, 101, 99, 116, 46, 116, 120, 116]

/-- An absolute path. -/
structure Path where
  bytes : List UInt8
  absolute : bytes.head? = some 47
  noZero : (0 : UInt8) ∉ bytes

/-- `getcwd(filepath, size)`, which fails when the path does not fit. -/
def getcwd (cwd : Path) (size : ℕ) (mem : Memory) : Memory :=
  if cwd.bytes.length + 1 ≤ size then mem.write 0 (cwd.bytes ++ [0]) else mem

/-- The access for which a file is opened. -/
inductive Access where
  /-- `O_RDONLY`. -/
  | rdonly
  /-- `O_CREAT | O_RDWR`. -/
  | creatRdwr
  deriving DecidableEq

/-- The protection of a mapping. -/
inductive Prot where
  /-- `PROT_READ`. -/
  | read
  /-- `PROT_READ | PROT_WRITE`. -/
  | readWrite
  deriving DecidableEq

/-- The answers of the operating system. -/
structure Kernel where
  /-- `open(path, access, S_IRUSR | S_IWUSR)`. -/
  openFile : List UInt8 → Access → ℤ
  /-- `fstat(fd, &sb) != -1`. -/
  fstat : ℤ → Bool

/-- How a function ends. -/
inductive Mapped where
  /-- `ERROR_MSG`, which exits. -/
  | exit (msg : String)
  /-- The file is mapped, and its path and permissions have been printed. -/
  | mapped (fd : ℤ) (prot : Prot) (file : List UInt8) (perms : String)
  deriving DecidableEq

/-- What the two functions have in common: the memory at `filepath` and how the function ends;
`none` when there is no string in the array. -/
def mapping (access : Access) (prot : Prot) (missing perms : String) (k : Kernel) (cwd : Path)
    (mem : Memory) : Option (Memory × Mapped) := do
  let mem ← strncat strBuf (getcwd cwd strBuf mem) filename strBuf
  let file ← textAt (2 * strBuf) mem
  let fd := k.openFile file access
  return (mem, if k.fstat fd then .mapped fd prot file perms else .exit missing)

/-- `open_mapping`. -/
def openMapping : Kernel → Path → Memory → Option (Memory × Mapped) :=
  mapping .rdonly .read "Missing file" "read"

/-- `create_mapping`. -/
def createMapping : Kernel → Path → Memory → Option (Memory × Mapped) :=
  mapping .creatRdwr .readWrite "Missing File" "read+write"

/-- The string at `filepath` and its zero are at most `STR_BUF` bytes. -/
def PathFits (r : Option (Memory × Mapped)) : Prop :=
  ∃ mem m text, r = some (mem, m) ∧ IsString mem text ∧ text.length + 1 ≤ strBuf

variable {cwd : Path}

lemma length_filename : filename.length = 18 := rfl

lemma noZero_filename : (0 : UInt8) ∉ filename := by decide

/-- The bound that is given to `strncat` does not cut the name. -/
lemma take_filename : filename.take strBuf = filename := rfl

/-- When `getcwd` succeeds, the array holds the working directory. -/
lemma isString_getcwd (h : cwd.bytes.length + 1 ≤ strBuf) (mem : Memory) :
    IsString (getcwd cwd strBuf mem) cwd.bytes := by
  rw [getcwd, if_pos h]
  show IsString (mem.write ([] : List UInt8).length (cwd.bytes ++ [0])) ([] ++ cwd.bytes)
  apply isString_write List.not_mem_nil cwd.noZero
  intro i hi
  exact absurd hi (Nat.not_lt_zero i)

/-- **What a function does** when `getcwd` succeeds: it opens the file in the working directory, and
no byte is changed behind the zero of its path. -/
theorem mapping_eq (access : Access) (prot : Prot) (missing perms : String)
    (h : cwd.bytes.length + 1 ≤ strBuf) (k : Kernel) (mem : Memory) :
    ∃ mem', mapping access prot missing perms k cwd mem = some (mem',
        let fd := k.openFile (cwd.bytes ++ filename) access
        if k.fstat fd then .mapped fd prot (cwd.bytes ++ filename) perms else .exit missing) ∧
      IsString mem' (cwd.bytes ++ filename) ∧
      ∀ i, (cwd.bytes ++ filename).length < i → mem' i = mem i := by
  obtain ⟨mem', hmem', hstring, hframe⟩ :=
    isString_strncat (n := strBuf) (isString_getcwd h mem) (Nat.lt_of_succ_le h) noZero_filename
  rw [take_filename] at hstring hframe
  have hlen : (cwd.bytes ++ filename).length < 2 * strBuf := by
    rw [List.length_append, length_filename]
    simp only [strBuf] at h ⊢
    omega
  refine ⟨mem', ?_, hstring, ?_⟩
  · simp [mapping, hmem', hstring.textAt_eq hlen]
  · intro i hi
    rw [hframe i hi, getcwd, if_pos h]
    apply Memory.write_of_le
    simp only [List.length_append, List.length_singleton] at hi ⊢
    omega

/-- So the path of each function fits under the same condition. -/
lemma pathFits_mapping {access : Access} {prot : Prot} {missing perms : String}
    (h : cwd.bytes.length + 1 ≤ strBuf) (k : Kernel) (mem : Memory) :
    PathFits (mapping access prot missing perms k cwd mem) ↔ cwd.bytes.length ≤ 237 := by
  obtain ⟨mem', heq, hstring, -⟩ := mapping_eq access prot missing perms h k mem
  have hlen : (cwd.bytes ++ filename).length = cwd.bytes.length + 18 := by
    rw [List.length_append, length_filename]
  rw [heq]
  constructor
  · rintro ⟨_, _, text, hsome, htext, hle⟩
    obtain ⟨rfl, -⟩ := Prod.mk.inj (Option.some.inj hsome)
    have htext' : text = cwd.bytes ++ filename := htext.unique hstring
    rw [htext', hlen] at hle
    simp only [strBuf] at hle
    omega
  · intro hle
    refine ⟨mem', _, _, rfl, hstring, ?_⟩
    rw [hlen]
    simp only [strBuf]
    omega

/-- **The path fits** exactly when the working directory is at most 237 characters long. -/
theorem pathFits_iff (cwd : Path) (h : cwd.bytes.length + 1 ≤ strBuf) (k : Kernel) (mem : Memory) :
    (PathFits (openMapping k cwd mem) ↔ cwd.bytes.length ≤ 237) ∧
      (PathFits (createMapping k cwd mem) ↔ cwd.bytes.length ≤ 237) :=
  ⟨pathFits_mapping h k mem, pathFits_mapping h k mem⟩

/-- In the root directory it fits. -/
theorem pathFits_root :
    PathFits (openMapping ⟨fun _ _ => 3, fun _ => true⟩ ⟨[47], rfl, by decide⟩ fun _ => 0) ∧
      PathFits (createMapping ⟨fun _ _ => 3, fun _ => true⟩ ⟨[47], rfl, by decide⟩ fun _ => 0) := by
  have h := pathFits_iff ⟨[47], rfl, by decide⟩ (by decide) ⟨fun _ _ => 3, fun _ => true⟩
    fun _ => 0
  exact ⟨h.1.mpr (by decide), h.2.mpr (by decide)⟩

/-- A directory in the root directory whose name has 237 characters. -/
def longPath : Path where
  bytes := 47 :: List.replicate 237 97
  absolute := rfl
  noZero hmem := by
    rcases List.mem_cons.mp hmem with h | h
    · exact absurd h (by decide)
    · exact absurd (List.eq_of_mem_replicate h) (by decide)

/-- There `getcwd` succeeds and the path does not fit. -/
theorem not_pathFits_longPath :
    longPath.bytes.length + 1 ≤ strBuf ∧
      ¬ PathFits (openMapping ⟨fun _ _ => 3, fun _ => true⟩ longPath fun _ => 0) ∧
      ¬ PathFits (createMapping ⟨fun _ _ => 3, fun _ => true⟩ longPath fun _ => 0) := by
  have hlen : longPath.bytes.length = 238 := by
    rw [longPath, List.length_cons, List.length_replicate]
  have h : longPath.bytes.length + 1 ≤ strBuf := by
    rw [hlen]
    decide
  refine ⟨h, ?_, ?_⟩
  · intro hfits
    have hle := (pathFits_mapping h _ _).mp hfits
    omega
  · intro hfits
    have hle := (pathFits_mapping h _ _).mp hfits
    omega

end SharedMemory

end PosixIntro
