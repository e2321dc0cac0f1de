import Mathlib.Tactic

/-! What the loader knows of an ELF image: its segments, and where a segment falls in an
address space. Words of the source are natural numbers, with the wrap written out where the
source does not check for it. -/
namespace HouseKernel.Loader

abbrev Bytes := List (BitVec 8)

inductive LoadError where
  | badMagic
  | badArch
  | badType
  | tooManyPhdrs
  | tooManySegments
  | badSegment (what : String)
  | overlapSize
  | noSpace
  | misaligned
  | outOfWindow (va : ℕ)
  | truncated
  | badDyn (what : String)
  | dependencyMissing (name : String)
  | unsupportedReloc (kind : ℕ)
  | tlsUnsupported
  | neededCycle
  deriving DecidableEq, Repr

structure Segment where
  vaddr : ℕ
  fileOff : ℤ
  fileSz : ℤ
  memSz : ℤ
  flags : BitVec 32
  deriving DecidableEq, Repr

def pfW : BitVec 32 := 2

def checkedAddWord (label : String) (left right : ℕ) : Except LoadError ℕ :=
  if right > 2^64 - 1 - left then .error (.badDyn (label ++ " overflows")) else .ok (left + right)

/-- Where a segment falls: its first page, how many pages it covers, and how far into the
first one it starts. -/
structure Layout where
  pageBase : ℕ
  pages : ℕ
  delta : ℕ
  deriving DecidableEq, Repr

def segmentMappingLayout (base : ℕ) (segment : Segment) : Except LoadError Layout :=
  if segment.memSz < 0 then .error (.badDyn "negative segment size")
  else match checkedAddWord "segment start" base segment.vaddr with
    | .error e => .error e
    | .ok absoluteStart =>
      let pageBase := absoluteStart - absoluteStart % 4096
      let delta := absoluteStart - pageBase
      match checkedAddWord "segment span" delta segment.memSz.toNat with
      | .error e => .error e
      | .ok spanBytes => .ok ⟨pageBase, if segment.memSz = 0 then 0 else (spanBytes - 1) / 4096 + 1, delta⟩

/-- An object whose pages are filled in when they are touched. -/
structure DemandObject where
  base : ℕ
  bytes : Bytes
  segs : List Segment
  deriving DecidableEq, Repr

abbrev DemandTable := List DemandObject

/-- Every page that a segment covers. -/
def segmentPages (base : ℕ) (segment : Segment) : List ℕ :=
  match segmentMappingLayout base segment with
  | .error _ => []
  | .ok l => (List.range l.pages).map fun idx => (l.pageBase + idx*4096) % 2^64

/-- Every page that an object commits. -/
def demandObjectPages (object : DemandObject) : List ℕ := object.segs.flatMap (segmentPages object.base)

/-- The segment that covers a page, with its first page and its offset there. -/
def coveringSegment (object : DemandObject) (vaPage : ℕ) : Option (Segment × ℕ × ℕ) :=
  (object.segs.filterMap fun segment => match segmentMappingLayout object.base segment with
    | .error _ => none
    | .ok l =>
      if 0 < l.pages ∧ l.pageBase ≤ vaPage ∧ vaPage < (l.pageBase + l.pages*4096) % 2^64 then
        some (segment, l.pageBase, l.delta)
      else none).head?

end HouseKernel.Loader
