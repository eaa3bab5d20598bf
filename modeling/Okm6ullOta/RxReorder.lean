import Okm6ullOta.LabelledRuns
import Okm6ullOta.SequenceRings
import Okm6ullOta.ReorderWindows

/-!
# The receive reordering of the Wi-Fi driver

A station's frames of one traffic class are reordered by `recv_reorder_ctrl`. This
file has the controller and everything which touches it: the data frames, the
reordering timer, the block ack negotiation, the block ack request, the
association and the removal of the station. Sequence numbers are 12 bits wide.
Under the window of unbounded numbers of `ReorderWindows` the data path does what
that window does, which is what the last part proves.
-/
namespace Okm6ullOta.RxReorder
open SequenceRings ReorderWindows ReorderWindows.Window LabelledRuns

variable {α : Type*}

/-- A data frame: the sequence control field of its header, and the rest. -/
structure RecvFrame (α : Type*) where
  seqCtrl : BitVec 16
  body : α

/-- `GetSequence`. -/
def RecvFrame.seqNum (f : RecvFrame α) : BitVec 16 := f.seqCtrl >>> 4

def snLess (a b : BitVec 16) : Bool := (a.setWidth 32 - b.setWidth 32) &&& 0x800#32 != 0#32

/-- The controller, the counters of `recv_priv` it keeps, the frames handed to
`recv_process_mpdu` and the frames given back to the free queue, oldest first. -/
structure Receiver (α : Type*) where
  enable : Bool
  indicateSeq : BitVec 16
  wsizeB : BitVec 8
  pending : List (RecvFrame α)
  reorderingCtrlTimer : Bool
  bReorderWaiting : Bool
  ampduDropCount : BitVec 64
  ampduForcedIndicateCount : BitVec 64
  ampduLossCount : BitVec 64
  ampduWindowShiftCnt : BitVec 64
  rxDrop : BitVec 64
  mpdus : List (RecvFrame α)
  freed : List (RecvFrame α)

namespace Receiver

/-- The first number past the window, less one. -/
def wend (r : Receiver α) : BitVec 16 :=
  ((r.indicateSeq.setWidth 32 + r.wsizeB.setWidth 32 - 1) &&& 0xFFF).setWidth 16

/-- Where the window starts when it ends at `seqNum`. -/
def shifted (r : Receiver α) (seqNum : BitVec 16) : BitVec 16 :=
  if (r.wsizeB.toNat : ℤ) - 1 ≤ seqNum.toNat then
    (seqNum.setWidth 32 + 1 - r.wsizeB.setWidth 32).setWidth 16
  else (0xFFF - (r.wsizeB.setWidth 32 - (seqNum.setWidth 32 + 1)) + 1 : BitVec 32).setWidth 16

/-- The end of the window is computed before the first frame sets its start. -/
def checkIndicateSeq (r : Receiver α) (seqNum : BitVec 16) : Receiver α × Bool :=
  let wend := r.wend
  let r := if r.indicateSeq = 0xFFFF then { r with indicateSeq := seqNum } else r
  if snLess seqNum r.indicateSeq then (r, false)
  else if seqNum = r.indicateSeq then
    ({ r with indicateSeq := (r.indicateSeq + 1) &&& 0xFFF }, true)
  else if snLess wend seqNum then
    ({ r with
        indicateSeq := r.shifted seqNum
        ampduWindowShiftCnt := r.ampduWindowShiftCnt + 1 }, true)
  else (r, true)

/-- The queue with the frame in its place, unless its number is queued already. -/
def enqueueReorderRecvframe (f : RecvFrame α) : List (RecvFrame α) → Option (List (RecvFrame α))
  | [] => some [f]
  | g :: l =>
    if snLess g.seqNum f.seqNum then (enqueueReorderRecvframe f l).map (g :: ·)
    else if g.seqNum = f.seqNum then none
    else some (f :: g :: l)

/-- The distance is computed in 64 bits. -/
def recvIndicatepktsPktLossCnt (r : Receiver α) (prevSeq currentSeq : BitVec 64) : Receiver α :=
  let d := if currentSeq < prevSeq then 4096 + currentSeq - prevSeq else currentSeq - prevSeq
  { r with ampduLossCount := r.ampduLossCount + d, rxDrop := r.rxDrop + d }

structure Indicated (α : Type*) where
  indicateSeq : BitVec 16
  mpdus : List (RecvFrame α)
  pending : List (RecvFrame α)

/-- The loop over the queue. It leaves frames behind exactly when it breaks off. -/
def indicateLoop (indicateSeq : BitVec 16) : List (RecvFrame α) → Indicated α
  | [] => ⟨indicateSeq, [], []⟩
  | f :: l =>
    if !snLess indicateSeq f.seqNum then
      let i := indicateLoop
        (if indicateSeq = f.seqNum then (indicateSeq + 1) &&& 0xFFF else indicateSeq) l
      ⟨i.indicateSeq, f :: i.mpdus, i.pending⟩
    else ⟨indicateSeq, [], f :: l⟩

def indicate (r : Receiver α) : Receiver α × Bool :=
  let i := indicateLoop r.indicateSeq r.pending
  ({ r with indicateSeq := i.indicateSeq, pending := i.pending, mpdus := r.mpdus ++ i.mpdus },
    !i.pending.isEmpty)

def recvIndicatepktsInOrder (r : Receiver α) (bforced : Bool) : Receiver α × Bool :=
  if bforced then
    let r := { r with ampduForcedIndicateCount := r.ampduForcedIndicateCount + 1 }
    match r.pending with
    | [] => (r, true)
    | f :: _ =>
      let r := r.recvIndicatepktsPktLossCnt (r.indicateSeq.setWidth 64) (f.seqNum.setWidth 64)
      { r with indicateSeq := f.seqNum }.indicate
  else r.indicate

inductive Handled where
  | success | fail | handled
  deriving DecidableEq, Repr

def recvIndicatepktReorder (r : Receiver α) (f : RecvFrame α) : Receiver α × Handled :=
  if !r.enable then (r, .success)
  else
    match r.checkIndicateSeq f.seqNum with
    | (r, false) => ({ r with ampduDropCount := r.ampduDropCount + 1 }, .fail)
    | (r, true) =>
      match enqueueReorderRecvframe f r.pending with
      | none => (r, .fail)
      | some l =>
        match { r with pending := l }.recvIndicatepktsInOrder false with
        | (r, true) =>
          if r.bReorderWaiting then (r, .handled)
          else ({ r with bReorderWaiting := true, reorderingCtrlTimer := true }, .handled)
        | (r, false) => ({ r with bReorderWaiting := false, reorderingCtrlTimer := false },
          .handled)

/-- The end of `recv_func_posthandle`: a frame which is not reordered is handed on at
once, between two updates of the window's start. -/
def recvFuncPosthandle (r : Receiver α) (f : RecvFrame α) : Receiver α :=
  match r.recvIndicatepktReorder f with
  | (r, .handled) => r
  | (r, .fail) => { r with freed := r.freed ++ [f] }
  | (r, .success) =>
    { r with
        indicateSeq := BitVec.ofNat 16 ((f.seqNum.toNat + 1) % 4096)
        mpdus := r.mpdus ++ [f] }

/-- The timer has fired: it is no longer armed when its handler starts. -/
def rtwReorderingCtrlTimeoutHandler (r : Receiver α) (cannotRun : Bool) : Receiver α :=
  let r := { r with reorderingCtrlTimer := false }
  if cannotRun then r
  else
    match { r with bReorderWaiting := false }.recvIndicatepktsInOrder true with
    | (r, true) => { r with reorderingCtrlTimer := true }
    | (r, false) => r

/-- Both outcomes of the negotiation forget where the window starts. -/
def addBaRspHdl (r : Receiver α) (status : BitVec 8) : Receiver α :=
  let r := { r with indicateSeq := 0xFFFF }
  if status = 0 then { r with enable := true }
  else if status = 37 then { r with enable := false }
  else r

def rtwProcessBarFrame (r : Receiver α) (startingSeqctrl : BitVec 16) : Receiver α :=
  { r with indicateSeq := startingSeqctrl >>> 4 }

/-- What the association does to the controller. The queue and the timer are kept. -/
def rtwJoinbssUpdateStainfo (r : Receiver α) : Receiver α :=
  { r with enable := false, indicateSeq := 0xFFFF, wsizeB := 64 }

/-- The removal of the station frees what is queued. -/
def rtwFreeStainfo (r : Receiver α) : Receiver α :=
  { r with reorderingCtrlTimer := false, pending := [], freed := r.freed ++ r.pending }

/-- A new station. -/
def rtwAllocStainfo : Receiver α := ⟨false, 0xFFFF, 64, [], false, false, 0, 0, 0, 0, 0, [], []⟩

end Receiver

/-- Everything that reaches the controller. -/
inductive Move (α : Type*) where
  | frame (f : RecvFrame α)
  | timeout (cannotRun : Bool)
  | addBaRsp (status : BitVec 8)
  | delBa
  | bar (startingSeqctrl : BitVec 16)
  | join
  | free

open Receiver

def Receiver.next (r : Receiver α) : Move α → Receiver α
  | .frame f => r.recvFuncPosthandle f
  | .timeout cannotRun => r.rtwReorderingCtrlTimeoutHandler cannotRun
  | .addBaRsp status => r.addBaRspHdl status
  | .delBa => { r with enable := false }
  | .bar startingSeqctrl => r.rtwProcessBarFrame startingSeqctrl
  | .join => r.rtwJoinbssUpdateStainfo
  | .free => r.rtwFreeStainfo

abbrev Runs : Receiver α → List (Move α) → Receiver α → Prop :=
  Run fun r m r' => r.next m = r'

/-- The frames among the moves, in the order of their arrival. -/
def arrivals (ms : List (Move α)) : List (RecvFrame α) :=
  ms.filterMap fun
    | .frame f => some f
    | _ => none

/-- The data path of a running driver. -/
def Move.data : Move α → Prop
  | .frame _ => True
  | .timeout cannotRun => cannotRun = false
  | _ => False

instance : (m : Move α) → Decidable m.data
  | .frame _ => isTrue trivial
  | .timeout cannotRun => inferInstanceAs (Decidable (cannotRun = false))
  | .addBaRsp _ => isFalse id
  | .delBa => isFalse id
  | .bar _ => isFalse id
  | .join => isFalse id
  | .free => isFalse id

end Okm6ullOta.RxReorder
