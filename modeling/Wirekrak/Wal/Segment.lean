import Wirekrak.Flashstrike.Types

/-!
# Wirekrak.Wal.Segment — the format of a segment file

A segment file is a header of 64 bytes, followed by blocks of a fixed size; a block is a header and the places of
256 events.  `File` holds the blocks by their byte offset, so that the offsets of the writer and of the reader can be
compared.  Header and blocks are copied as a whole from and to the mapped file, and read back from it in the same
layout.

`XXH64` comes from outside and is a parameter (`Hash`).  A checksum of a header leaves out the field it is stored in.
-/

namespace Wirekrak.Wal

open Wirekrak.Flashstrike (Side)

/-! ## Constants -/

/-- `WAL_BLOCK_EVENTS`. -/
def blockEvents : ℕ := 256

def minBlocks : ℕ := 16

def maxBlocks : ℕ := 512 * 1024

def walMagic : ℕ := 0x4653

def walVersion : ℕ := 1

/-- `sizeof(Header)`. -/
def headerBytes : ℕ := 64

/-- `sizeof(Block)`: a block header and the places of the events, each of 64 bytes. -/
def blockBytes : ℕ := 64 + blockEvents * 64

def invalidEventId : ℕ := 0

inductive Status
  | segmentNotFound
  | itemNotFound
  | openFailed
  | fileAlreadyExists
  | readFailed
  | headerChecksumMismatch
  | blockChecksumMismatch
  | chainedChecksumMismatch
  | segmentCorrupted
  | segmentPossiblyCorrupted
  deriving DecidableEq, Repr

/-! ## Events, blocks, headers -/

inductive RequestType
  | newOrder
  | modifyOrderPrice
  | modifyOrderQuantity
  | cancelOrder
  deriving DecidableEq

structure RequestEvent where
  eventId : ℕ := 0
  timestamp : ℕ := 0
  price : ℤ := 0
  quantity : ℤ := 0
  userId : ℕ := 0
  orderId : ℕ := 0
  type : RequestType := .newOrder
  orderType : Flashstrike.OrderType := .limit
  side : Side := .bid
  deriving DecidableEq

structure BlockHeader where
  firstEventId : ℕ := 0
  lastEventId : ℕ := 0
  blockChecksum : UInt64 := 0
  chainedChecksum : UInt64 := 0
  checksum : UInt64 := 0
  blockIndex : ℕ := 0
  eventCount : ℕ := 0
  deriving DecidableEq

structure Block where
  header : BlockHeader := {}
  events : ℕ → RequestEvent := fun _ => {}

structure Header where
  magic : ℕ := 0
  version : ℕ := 0
  headerSize : ℕ := 0
  segmentIndex : ℕ := 0
  blockCount : ℕ := 0
  eventCount : ℕ := 0
  firstEventId : ℕ := 0
  lastEventId : ℕ := 0
  createdTsNs : ℕ := 0
  closedTsNs : ℕ := 0
  checksum : UInt64 := 0
  lastChainedChecksum : UInt64 := 0
  deriving DecidableEq

/-- `XXH64` over events with a seed, and over the bytes of a header without its checksum field. -/
structure Hash where
  events : List RequestEvent → UInt64 → UInt64
  blockHeader : BlockHeader → UInt64
  header : Header → UInt64

variable (x : Hash)

namespace Block

/-- The events that count, without the padding. -/
def valid (b : Block) : List RequestEvent :=
  (List.range b.header.eventCount).map b.events

def computeBlockChecksum (b : Block) : UInt64 :=
  x.events b.valid 0

def computeChainedChecksum (b : Block) (prevChain : UInt64) : UInt64 :=
  x.events b.valid prevChain

def finalize (blockIndex : ℕ) (prevChained : UInt64) (b : Block) : Block :=
  let h := { b.header with
    blockIndex := blockIndex
    blockChecksum := b.computeBlockChecksum x
    chainedChecksum := b.computeChainedChecksum x prevChained }
  { b with header := { h with checksum := x.blockHeader { h with checksum := 0 } } }

/-- `BlockHeader::validate_data`, then the order of the ids. -/
def validateData (b : Block) : Bool :=
  let h := b.header
  decide (¬ (h.eventCount = 0 ∨ blockEvents < h.eventCount)) &&
    decide (¬ (h.firstEventId = 0 ∨ h.lastEventId = 0)) &&
    decide (¬ h.lastEventId < h.firstEventId) &&
    decide (¬ maxBlocks < h.blockIndex) &&
    (List.range (h.eventCount - 1)).all fun i => decide ((b.events i).eventId < (b.events (i + 1)).eventId)

def verify (prevChained : UInt64) (b : Block) : Except Status Unit :=
  if b.validateData = false then .error .segmentPossiblyCorrupted
  else if b.computeBlockChecksum x ≠ b.header.blockChecksum then .error .blockChecksumMismatch
  else if b.computeChainedChecksum x prevChained ≠ b.header.chainedChecksum then .error .chainedChecksumMismatch
  else .ok ()

end Block

namespace Header

def computeChecksum (h : Header) : UInt64 :=
  x.header { h with checksum := 0 }

def validateData (h : Header) : Bool :=
  decide (h.magic = walMagic) && decide (h.version = walVersion) && decide (h.headerSize = headerBytes)

def verify (h : Header) : Except Status Unit :=
  if h.checksum ≠ h.computeChecksum x then .error .headerChecksumMismatch
  else if h.validateData = false then .error .segmentPossiblyCorrupted
  else .ok ()

def finalize (chained : UInt64) (now : ℕ) (h : Header) : Header :=
  let h := { h with closedTsNs := now, lastChainedChecksum := chained }
  { h with checksum := h.computeChecksum x }

/-- The result is a `uint32_t`. -/
def segmentSize (h : Header) : ℕ :=
  (headerBytes + h.blockCount * blockBytes) % 2 ^ 32

end Header

/-! ## Files -/

/-- A segment file of `size` bytes; `block` gives the block that stands at a byte offset. -/
structure File where
  size : ℕ
  header : Header := {}
  block : ℕ → Block := fun _ => {}

/-- The walk over the blocks: from `offset` on, `n` blocks, the last chained checksum being `prev`. -/
def verifyBlocks (f : File) (size : ℕ) : ℕ → ℕ → UInt64 → Except Status UInt64
  | 0, _, prev => .ok prev
  | n + 1, offset, prev =>
    if size < offset + blockBytes then .error .segmentCorrupted
    else
      match (f.block offset).verify x prev with
      | .error e => .error e
      | .ok () => verifyBlocks f size n (offset + blockBytes) (f.block offset).header.chainedChecksum

def verifyFullSegmentIntegrity (f : File) (size : ℕ) : Except Status Header :=
  match f.header.verify x with
  | .error e => .error e
  | .ok () =>
    match verifyBlocks x f size f.header.blockCount headerBytes 0 with
    | .error e => .error e
    | .ok prev => if prev ≠ f.header.lastChainedChecksum then .error .segmentCorrupted else .ok f.header

def readSegmentHeader (f : File) : Except Status Header :=
  if f.size < headerBytes then .error .openFailed
  else
    match f.header.verify x with
    | .error e => .error e
    | .ok () => .ok f.header

variable {x}

/-- The header that is given out is the one of the file. -/
theorem verifyFull_header {f : File} {size : ℕ} {h : Header} (hv : verifyFullSegmentIntegrity x f size = .ok h) :
    h = f.header := by
  unfold verifyFullSegmentIntegrity at hv
  split at hv
  · cases hv
  · split at hv
    · cases hv
    · split at hv
      · cases hv
      · cases hv
        rfl

end Wirekrak.Wal
