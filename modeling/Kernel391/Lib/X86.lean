import Mathlib.Data.Nat.Bitwise

/-!
# The x86 two-level page walk

32-bit paging with 4 KB pages and, through the page-size bit, 4 MB pages. Entries are numbers;
a bit of an entry is read off by division. A translation needs the present bit at every level,
and in user mode the user bit at every level.

The walk reads one directory entry and at most one table entry, so what an address is mapped
to follows from those two entries alone: `translate_large`, `translate_small` and
`translate_blocked` compute it, `translate_eq_some` inverts it.
-/

namespace X86

/-- A page directory or page table: its entries, by index. -/
abbrev Table := Nat → Nat

/-- The privilege an access is made with. -/
inductive Mode
  | user
  | supervisor
  deriving DecidableEq

/-- An entry lets an access through: present, and open to user mode if the access needs it. -/
def allowed (m : Mode) (e : Nat) : Bool :=
  e % 2 == 1 && (m == .supervisor || e / 4 % 2 == 1)

/-- The page-size bit: a directory entry that maps a 4 MB page itself. -/
def large (e : Nat) : Bool := e / 128 % 2 == 1

/-- The 4 KB-aligned address an entry holds. -/
def frame4K (e : Nat) : Nat := e / 4096 * 4096

/-- The 4 MB-aligned address an entry holds. -/
def frame4M (e : Nat) : Nat := e / 4194304 * 4194304

/-- The directory index of a virtual address. -/
def dirIndex (va : Nat) : Nat := va / 4194304 % 1024

/-- The table index of a virtual address. -/
def tableIndex (va : Nat) : Nat := va / 4096 % 1024

/-- The physical address of `va`, or `none` for a page fault. `tableAt` is the page table found
at a physical address. -/
def translate (dir : Table) (tableAt : Nat → Table) (m : Mode) (va : Nat) : Option Nat :=
  let pde := dir (dirIndex va)
  if allowed m pde then
    if large pde then some (frame4M pde + va % 4194304)
    else
      let pte := tableAt (frame4K pde) (tableIndex va)
      if allowed m pte then some (frame4K pte + va % 4096) else none
  else none

variable {dir dir' : Table} {tableAt tableAt' : Nat → Table} {m : Mode} {va pa : Nat}

theorem translate_large (ha : allowed m (dir (dirIndex va)) = true)
    (hl : large (dir (dirIndex va)) = true) :
    translate dir tableAt m va = some (frame4M (dir (dirIndex va)) + va % 4194304) := by
  simp [translate, ha, hl]

theorem translate_small (ha : allowed m (dir (dirIndex va)) = true)
    (hl : large (dir (dirIndex va)) = false)
    (ht : allowed m (tableAt (frame4K (dir (dirIndex va))) (tableIndex va)) = true) :
    translate dir tableAt m va =
      some (frame4K (tableAt (frame4K (dir (dirIndex va))) (tableIndex va)) + va % 4096) := by
  simp [translate, ha, hl, ht]

/-- A directory entry that refuses the access faults. -/
theorem translate_blocked (ha : allowed m (dir (dirIndex va)) = false) :
    translate dir tableAt m va = none := by
  simp [translate, ha]

/-- A successful walk went through a 4 MB entry, or through a table entry. -/
theorem translate_eq_some (h : translate dir tableAt m va = some pa) :
    allowed m (dir (dirIndex va)) = true ∧
      (large (dir (dirIndex va)) = true ∧
          pa = frame4M (dir (dirIndex va)) + va % 4194304 ∨
        large (dir (dirIndex va)) = false ∧
          allowed m (tableAt (frame4K (dir (dirIndex va))) (tableIndex va)) = true ∧
          pa = frame4K (tableAt (frame4K (dir (dirIndex va))) (tableIndex va)) + va % 4096) := by
  by_cases ha : allowed m (dir (dirIndex va)) = true
  · by_cases hl : large (dir (dirIndex va)) = true
    · rw [translate_large ha hl] at h
      exact ⟨ha, .inl ⟨hl, (Option.some.inj h).symm⟩⟩
    · have hl : large (dir (dirIndex va)) = false := by simpa using hl
      by_cases ht : allowed m (tableAt (frame4K (dir (dirIndex va))) (tableIndex va)) = true
      · rw [translate_small ha hl ht] at h
        exact ⟨ha, .inr ⟨hl, ht, (Option.some.inj h).symm⟩⟩
      · simp [translate, ha, hl, ht] at h
  · rw [translate_blocked (by simpa using ha)] at h
    exact absurd h (by simp)

/-- A page-aligned address combined with flag bits below the page size. -/
theorem or_flags {a f k : Nat} (ha : a % 2 ^ k = 0) (hf : f < 2 ^ k) : a ||| f = a + f := by
  obtain ⟨b, rfl⟩ := Nat.dvd_of_mod_eq_zero ha
  exact (Nat.two_pow_add_eq_or_of_lt hf b).symm

end X86
