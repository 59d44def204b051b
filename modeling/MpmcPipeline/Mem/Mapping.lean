import MpmcPipeline.Mem.Pool
import MpmcPipeline.Wire.Alignment

/-!
# Regions mapped from the system

`os::map` and `os::map_shared` (`os_memory.cpp`) round the length they are asked for up to the
alignment and then to whole pages, both modulo `2 ^ 64`, and take a mapping of that length
from the system. The region holds what was asked for, whatever the sizes
(`mapImpl_size`): a rounding that wraps gives zero, and no system maps zero bytes.

The alignment is not passed on to the system. A base is aligned to pages and to nothing more,
so `mapped_regions_iff` has the alignments for which every region is as aligned as asked:
those up to a page, and those for which the rounding wraps and there never is a region. The
containers of the pipeline ask for a cache line, so that their elements are in the region and
begin cache lines (`ArrayRegion.element`), and the slots of a pool are where `PoolCapacity` has
them (`poolOf`).

What a system answers is an argument (`Os.System`). The calls of `madvise` are left out: they return
nothing that is looked at.
-/

namespace Hft

namespace Arch

/-- The systems that the preprocessor tells apart. -/
inductive Platform
  | linux
  | apple
  | windows
  | other
  deriving DecidableEq

/-- What the code is compiled for. -/
structure Target where
  isArm64 : Bool
  platform : Platform
  /-- `MAP_HUGETLB` is defined. -/
  mapHugetlb : Bool

/-- `arch::page_size` -/
def pageSize (t : Target) : BitVec 64 :=
  if t.isArm64 && (t.platform = .apple || t.platform = .linux) then 16384 else 4096

/-- `arch::cache_line_size` -/
def cacheLineSize : BitVec 64 := 64

/-- `arch::round_up` -/
abbrev roundUp (value align : BitVec 64) : BitVec 64 := Alignment.roundUp value align

theorem pageSize_isPowerOfTwo (t : Target) : (pageSize t).toNat.isPowerOfTwo := by
  unfold pageSize
  split
  · exact ⟨14, rfl⟩
  · exact ⟨12, rfl⟩

end Arch

namespace Os

open Arch (Target pageSize)

/-- `MapFlags` -/
abbrev MapFlags := BitVec 32

def MapFlags.none : MapFlags := 0
def MapFlags.locked : MapFlags := 1 <<< 0
def MapFlags.hugePageHint : MapFlags := 1 <<< 1

/-- `has_flag` -/
def hasFlag (flags flag : MapFlags) : Bool := flags &&& flag == flag

/-- `Region` -/
structure Region where
  base : BitVec 64
  mappedBytes : BitVec 64
  deriving DecidableEq

/-- `Region::data` -/
def Region.data (r : Region) : BitVec 64 := r.base

/-- `Region::size` -/
def Region.size (r : Region) : BitVec 64 := r.mappedBytes

/-- The flags of an `mmap` that are not the same in every call. -/
structure MmapFlags where
  shared : Bool
  hugetlb : Bool

/-- What a system answers during one call of `map`. -/
structure System where
  /-- The base that the `n`-th `mmap` returns, `none` for `MAP_FAILED`. -/
  mmap (n : ℕ) (length : BitVec 64) (flags : MmapFlags) : Option (BitVec 64)
  /-- `mlock` returns zero. -/
  mlock (base length : BitVec 64) : Bool
  /-- The base that `VirtualAlloc` returns, `none` for a null pointer. -/
  virtualAlloc (length : BitVec 64) : Option (BitVec 64)

/-- The `mmap` with the flag for huge pages if they are hinted at, and the one without it that
follows a failure. -/
def System.mmapHinted (os : System) (t : Target) (length : BitVec 64) (flags : MapFlags)
    (shared : Bool) : Option (BitVec 64) :=
  match os.mmap 0 length ⟨shared, t.mapHugetlb && hasFlag flags .hugePageHint⟩ with
  | some base => some base
  | none => if hasFlag flags .hugePageHint then os.mmap 1 length ⟨shared, false⟩ else none

/-- `detail::map_impl`; `none` is `map_abort`. -/
def mapImpl (t : Target) (os : System) (bytes alignment : BitVec 64) (flags : MapFlags)
    (shared : Bool) : Option Region :=
  if bytes = 0 then none
  else if alignment = 0 ∨ alignment &&& (alignment - 1) ≠ 0 then none
  else
    let alignedBytes := Arch.roundUp bytes alignment
    let mappedBytes := Arch.roundUp alignedBytes (pageSize t)
    if t.platform = .windows then
      match os.virtualAlloc mappedBytes with
      | some base => some ⟨base, mappedBytes⟩
      | none => none
    else
      match os.mmapHinted t mappedBytes flags shared with
      | some base =>
        if hasFlag flags .locked && !os.mlock base mappedBytes then none
        else some ⟨base, mappedBytes⟩
      | none => none

/-- `os::map` -/
def map (t : Target) (os : System) (bytes alignment : BitVec 64) (flags : MapFlags) :
    Option Region :=
  mapImpl t os bytes alignment flags false

/-- `os::map_shared` -/
def mapShared (t : Target) (os : System) (bytes alignment : BitVec 64) (flags : MapFlags) :
    Option Region :=
  mapImpl t os bytes alignment flags true

/-- The system refuses a mapping of no bytes, and any other has a page-aligned base. -/
structure System.Pages (os : System) (t : Target) : Prop where
  mmap_zero : ∀ n flags, os.mmap n 0 flags = none
  mmap_page : ∀ n length flags base, os.mmap n length flags = some base →
    (pageSize t).toNat ∣ base.toNat
  virtualAlloc_zero : os.virtualAlloc 0 = none
  virtualAlloc_page : ∀ length base, os.virtualAlloc length = some base →
    (pageSize t).toNat ∣ base.toNat

/-- The region is as large as asked, in whole pages, and aligned in size and address. -/
structure Region.Fits (r : Region) (t : Target) (bytes alignment : BitVec 64) : Prop where
  large : bytes.toNat ≤ r.size.toNat
  size_aligned : alignment.toNat ∣ r.size.toNat
  size_page : (pageSize t).toNat ∣ r.size.toNat
  data_aligned : alignment.toNat ∣ r.data.toNat

variable {t : Target} {os : System} {bytes alignment : BitVec 64} {flags : MapFlags}
  {shared : Bool} {r : Region}

theorem mmapHinted_eq_some {length base : BitVec 64}
    (h : os.mmapHinted t length flags shared = some base) :
    ∃ n flags', os.mmap n length flags' = some base := by
  unfold System.mmapHinted at h
  split at h
  · next h_first =>
    cases h
    exact ⟨0, _, h_first⟩
  · split at h
    · exact ⟨1, _, h⟩
    · cases h

/-- What `map_impl` returns has the rounded length and a base the system has given. -/
theorem mapImpl_eq_some (h : mapImpl t os bytes alignment flags shared = some r) :
    alignment.toNat.isPowerOfTwo ∧
    r.size = Arch.roundUp (Arch.roundUp bytes alignment) (pageSize t) ∧
    ((∃ n flags', os.mmap n r.size flags' = some r.data) ∨
      os.virtualAlloc r.size = some r.data) := by
  unfold mapImpl at h
  split at h
  · cases h
  · split at h
    · cases h
    · next h_valid =>
      rw [not_or, not_not] at h_valid
      refine ⟨(Alignment.isPowerOfTwo_iff alignment).mpr h_valid, ?_⟩
      dsimp only at h
      split at h
      · -- `VirtualAlloc`
        split at h
        · next base h_base =>
          cases h
          exact ⟨rfl, Or.inr h_base⟩
        · cases h
      · -- `mmap`, and perhaps `mlock`
        split at h
        · next base h_base =>
          split at h
          · cases h
          · cases h
            exact ⟨rfl, Or.inl (mmapHinted_eq_some h_base)⟩
        · cases h

theorem mapImpl_size_ne_zero (h_os : os.Pages t)
    (h : mapImpl t os bytes alignment flags shared = some r) : r.size ≠ 0 := by
  intro h_zero
  obtain ⟨-, -, ⟨n, flags', h_mmap⟩ | h_alloc⟩ := mapImpl_eq_some h
  · rw [h_zero, h_os.mmap_zero] at h_mmap
    cases h_mmap
  · rw [h_zero, h_os.virtualAlloc_zero] at h_alloc
    cases h_alloc

theorem mapImpl_data_page (h_os : os.Pages t)
    (h : mapImpl t os bytes alignment flags shared = some r) :
    (pageSize t).toNat ∣ r.data.toNat := by
  obtain ⟨-, -, ⟨n, flags', h_mmap⟩ | h_alloc⟩ := mapImpl_eq_some h
  · exact h_os.mmap_page _ _ _ _ h_mmap
  · exact h_os.virtualAlloc_page _ _ h_alloc

/-- A length aligned to more than a page is in whole pages. -/
theorem roundUp_page (h_align : alignment.toNat.isPowerOfTwo)
    (h_le : (pageSize t).toNat ≤ alignment.toNat) :
    Arch.roundUp (Arch.roundUp bytes alignment) (pageSize t) = Arch.roundUp bytes alignment := by
  have h_page := Arch.pageSize_isPowerOfTwo t
  apply Alignment.roundUp_eq_self h_page
  exact (Alignment.dvd_of_le h_page h_align h_le).trans (Alignment.dvd_roundUp bytes h_align)

/-- **Size.** However the roundings wrap, a region holds the bytes asked for, and its size is
a multiple of the alignment and of the page size. -/
theorem mapImpl_size (h_os : os.Pages t)
    (h : mapImpl t os bytes alignment flags shared = some r) :
    bytes.toNat ≤ r.size.toNat ∧ alignment.toNat ∣ r.size.toNat ∧
      (pageSize t).toNat ∣ r.size.toNat := by
  have h_page := Arch.pageSize_isPowerOfTwo t
  have h_ne := mapImpl_size_ne_zero h_os h
  obtain ⟨h_align, h_size, -⟩ := mapImpl_eq_some h
  have h_aligned := Alignment.dvd_roundUp bytes h_align
  rw [h_size] at h_ne ⊢
  -- zero pages for the aligned length if that has wrapped to zero
  have h_aligned_ne : Arch.roundUp bytes alignment ≠ 0 := by
    intro h_zero
    rw [h_zero] at h_ne
    exact h_ne (Alignment.roundUp_eq_self h_page (dvd_zero _))
  have h_large : bytes.toNat ≤
      (Arch.roundUp (Arch.roundUp bytes alignment) (pageSize t)).toNat :=
    calc bytes.toNat
      _ ≤ (Arch.roundUp bytes alignment).toNat := Alignment.le_roundUp h_align h_aligned_ne
      _ ≤ (Arch.roundUp (Arch.roundUp bytes alignment) (pageSize t)).toNat :=
        Alignment.le_roundUp h_page h_ne
  refine ⟨h_large, ?_, Alignment.dvd_roundUp _ h_page⟩
  rcases le_total alignment.toNat (pageSize t).toNat with h_le | h_le
  · exact (Alignment.dvd_of_le h_align h_page h_le).trans (Alignment.dvd_roundUp _ h_page)
  · rw [roundUp_page h_align h_le]
    exact h_aligned

theorem fits_of_le (h_os : os.Pages t) (h_le : alignment.toNat ≤ (pageSize t).toNat)
    (h : mapImpl t os bytes alignment flags shared = some r) : r.Fits t bytes alignment := by
  obtain ⟨h_large, h_align, h_page⟩ := mapImpl_size h_os h
  refine ⟨h_large, h_align, h_page, ?_⟩
  have h_dvd := Alignment.dvd_of_le (mapImpl_eq_some h).1 (Arch.pageSize_isPowerOfTwo t) h_le
  exact h_dvd.trans (mapImpl_data_page h_os h)

/-- A system that maps everything at one base. -/
def oneBase (base : BitVec 64) : System where
  mmap _ length _ := if length = 0 then none else some base
  mlock _ _ := true
  virtualAlloc length := if length = 0 then none else some base

theorem oneBase_pages {base : BitVec 64} (h : (pageSize t).toNat ∣ base.toNat) :
    (oneBase base).Pages t := by
  have h_some : ∀ (length base' : BitVec 64),
      (if length = 0 then none else some base) = some base' →
        (pageSize t).toNat ∣ base'.toNat := by
    intro length base' h_base
    split at h_base
    · cases h_base
    · cases h_base
      exact h
  exact ⟨fun _ _ => rfl, fun _ length _ => h_some length, rfl, h_some⟩

/-- There `map` returns where the rounded length is not zero. -/
theorem map_oneBase (base : BitVec 64) (flags : MapFlags) (h_bytes : bytes ≠ 0)
    (h_align : alignment.toNat.isPowerOfTwo)
    (h_ne : Arch.roundUp (Arch.roundUp bytes alignment) (pageSize t) ≠ 0) :
    map t (oneBase base) bytes alignment flags =
      some ⟨base, Arch.roundUp (Arch.roundUp bytes alignment) (pageSize t)⟩ := by
  have h_valid := (Alignment.isPowerOfTwo_iff alignment).mp h_align
  rw [map, mapImpl, if_neg h_bytes, if_neg (not_or.mpr ⟨h_valid.1, not_not.mpr h_valid.2⟩)]
  simp only [oneBase, System.mmapHinted, if_neg h_ne, Bool.not_true, Bool.and_false]
  split <;> rfl

/-- **Mapped regions.** For a length and a power of two, every region that `map` or
`map_shared` returns on any system fits what was asked for if and only if the alignment is at
most a page, or so near to `2 ^ 64` bytes are asked for that the rounded length is zero and
none is returned. -/
theorem mapped_regions_iff (t : Target) (flags : MapFlags) (h_bytes : bytes ≠ 0)
    (h_align : alignment.toNat.isPowerOfTwo) :
    (∀ os : System, os.Pages t → ∀ r,
      map t os bytes alignment flags = some r ∨ mapShared t os bytes alignment flags = some r →
      r.Fits t bytes alignment) ↔
    alignment.toNat ≤ (pageSize t).toNat ∨ 2 ^ 64 < bytes.toNat + alignment.toNat := by
  have h_page := Arch.pageSize_isPowerOfTwo t
  constructor
  · -- the system may map at the first page, which no greater alignment divides
    intro h_all
    rw [or_iff_not_imp_right]
    intro h_room
    by_contra h_gt
    have h_le : (pageSize t).toNat ≤ alignment.toNat := (Nat.not_le.mp h_gt).le
    have h_ne : Arch.roundUp (Arch.roundUp bytes alignment) (pageSize t) ≠ 0 := by
      rw [roundUp_page h_align h_le]
      exact fun h_zero => h_room ((Alignment.roundUp_eq_zero_iff h_align h_bytes).mp h_zero)
    have h_fits := h_all (oneBase (pageSize t)) (oneBase_pages dvd_rfl) _
      (Or.inl (map_oneBase (pageSize t) flags h_bytes h_align h_ne))
    exact h_gt (Nat.le_of_dvd (Alignment.pos_of_isPowerOfTwo h_page) h_fits.data_aligned)
  · rintro (h_le | h_wrap) os h_os r h
    · rcases h with h | h <;> exact fits_of_le h_os h_le h
    · -- zero bytes, which the system refuses
      have h_zero : Arch.roundUp (Arch.roundUp bytes alignment) (pageSize t) = 0 := by
        have h_first : Arch.roundUp bytes alignment = 0 :=
          (Alignment.roundUp_eq_zero_iff h_align h_bytes).mpr h_wrap
        rw [h_first]
        exact Alignment.roundUp_eq_self h_page (dvd_zero _)
      rcases h with h | h <;>
        exact absurd ((mapImpl_eq_some h).2.1.trans h_zero) (mapImpl_size_ne_zero h_os h)

/-- A cache line, as the ring, the pool and the inlet ask for. -/
theorem mapped_regions_iff_cacheLine :
    Arch.cacheLineSize ≠ 0 ∧ ∀ os : System, os.Pages ⟨false, .linux, true⟩ → ∀ r,
      map ⟨false, .linux, true⟩ os 0x300 Arch.cacheLineSize .none = some r ∨
        mapShared ⟨false, .linux, true⟩ os 0x300 Arch.cacheLineSize .none = some r →
      r.Fits ⟨false, .linux, true⟩ 0x300 Arch.cacheLineSize :=
  ⟨by decide, (mapped_regions_iff _ .none (by decide) ⟨6, rfl⟩).mpr (Or.inl (by decide))⟩

/-- Two pages asked for as alignment, and a region that begins with an odd page: `map` rounds the
length up and leaves the beginning to the system, which knows of pages only. -/
theorem mapped_region_unaligned :
    ¬∀ (t : Target) (bytes alignment : BitVec 64) (flags : MapFlags), bytes ≠ 0 →
      alignment.toNat.isPowerOfTwo → ∀ os : System, os.Pages t → ∀ r,
      map t os bytes alignment flags = some r ∨ mapShared t os bytes alignment flags = some r →
      r.Fits t bytes alignment := by
  intro h_all
  have h_fits := h_all ⟨false, .linux, true⟩ 1 0x2000 .none (by decide) ⟨13, rfl⟩
    (oneBase 0x7F0000001000) (oneBase_pages ⟨0x7F0000001, rfl⟩) ⟨0x7F0000001000, 0x2000⟩
    (Or.inl (by decide))
  exact absurd h_fits.data_aligned (by decide)

/-! ### The regions of the ring and of the pool -/

section Containers

variable {n stride : ℕ}

/-- The region of an array whose elements have cache lines of their own, in the address
space. -/
structure ArrayRegion (t : Target) (os : System) (n stride : ℕ) (r : Region) : Prop where
  pages : os.Pages t
  mapped : map t os (BitVec.ofNat 64 (n * stride)) Arch.cacheLineSize .none = some r
  bytes : n * stride < 2 ^ 64
  lines : Arch.cacheLineSize.toNat ∣ stride
  nonnull : r.data ≠ 0
  space : r.data.toNat + r.size.toNat ≤ 2 ^ 64

theorem ArrayRegion.fits (h : ArrayRegion t os n stride r) :
    r.Fits t (BitVec.ofNat 64 (n * stride)) Arch.cacheLineSize := by
  refine fits_of_le h.pages ?_ h.mapped
  -- on every target a page is more than a cache line
  unfold pageSize
  split <;> decide

theorem ArrayRegion.large (h : ArrayRegion t os n stride r) : n * stride ≤ r.size.toNat := by
  have h_large := h.fits.large
  rwa [BitVec.toNat_ofNat, Nat.mod_eq_of_lt h.bytes] at h_large

/-- **Every element is in the region and begins a cache line.** -/
theorem ArrayRegion.element (h : ArrayRegion t os n stride r) {i : ℕ} (h_i : i < n) :
    r.data.toNat + i * stride + stride ≤ r.data.toNat + r.size.toNat ∧
    Arch.cacheLineSize.toNat ∣ r.data.toNat + i * stride := by
  constructor
  · have h_end : i * stride + stride ≤ n * stride := by
      rw [← Nat.succ_mul]
      exact Nat.mul_le_mul_right stride h_i
    rw [Nat.add_assoc]
    exact Nat.add_le_add_left (h_end.trans h.large) _
  · exact Nat.dvd_add h.fits.data_aligned (h.lines.mul_left i)

/-- `sizeof(Node)` -/
def sizeofNode : ℕ := 64

/-- What the constructor of `MPMC` maps; the number of bytes never wraps. -/
theorem ringRegion (C : Capacity) (h_os : os.Pages t)
    (h_map : map t os (BitVec.ofNat 64 (C.val * sizeofNode)) Arch.cacheLineSize .none = some r)
    (h_null : r.data ≠ 0) (h_space : r.data.toNat + r.size.toNat ≤ 2 ^ 64) :
    ArrayRegion t os C.val sizeofNode r where
  pages := h_os
  mapped := h_map
  bytes := by
    have h_lt := C.lt
    unfold sizeofNode
    omega
  lines := by decide
  nonnull := h_null
  space := h_space

/-- The pool in the region that its constructor maps. -/
def poolOf (h_pos : 0 < n) (h : ArrayRegion t os n sizeofSlot r) : PoolCapacity where
  val := n
  pos := h_pos
  base := r.data
  fits := (Nat.add_le_add_left h.large _).trans h.space
  nonnull := h.nonnull

theorem poolOf_address (h_pos : 0 < n) (h : ArrayRegion t os n sizeofSlot r)
    (p : Ptr (poolOf h_pos h)) :
    ((poolOf h_pos h).address p).toNat + sizeofSlot ≤ r.data.toNat + r.size.toNat ∧
    Arch.cacheLineSize.toNat ∣ ((poolOf h_pos h).address p).toNat := by
  have h_base : (poolOf h_pos h).base = r.data := rfl
  rw [PoolCapacity.address_toNat, h_base]
  exact h.element p.isLt

end Containers

end Os

end Hft
