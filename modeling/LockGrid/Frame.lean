import LockGrid.Config
import LockGrid.Bytes

/-!
# Over-the-air frame header

The fixed part of a PDU as `lg_frame.c` writes and reads it. A secured frame carries its
frame counter behind the header; the counter's bytes are zero until the frame is sealed.
-/
namespace LockGrid

def fcfTypeMask : UInt8 := 0x0F
/-- Payload is encrypted and the whole frame is authenticated. -/
def fcfSec : UInt8 := 0x10
/-- Sender has more to send in this event. -/
def fcfMd : UInt8 := 0x20

inductive FrameType
  | beacon
  | joinReq
  | joinRsp
  | joinCfm
  | joinAck
  | resumeReq
  | resumeRsp
  | linkReq
  | linkRsp
  | data
  | ack
  | ctrl
  deriving DecidableEq, Repr

def FrameType.code : FrameType → UInt8
  | .beacon => 0
  | .joinReq => 1
  | .joinRsp => 2
  | .joinCfm => 3
  | .joinAck => 4
  | .resumeReq => 5
  | .resumeRsp => 6
  | .linkReq => 7
  | .linkRsp => 8
  | .data => 9
  | .ack => 10
  | .ctrl => 11

def FrameType.ofCode (c : UInt8) : Option FrameType :=
  match c with
  | 0 => some .beacon
  | 1 => some .joinReq
  | 2 => some .joinRsp
  | 3 => some .joinCfm
  | 4 => some .joinAck
  | 5 => some .resumeReq
  | 6 => some .resumeRsp
  | 7 => some .linkReq
  | 8 => some .linkRsp
  | 9 => some .data
  | 10 => some .ack
  | 11 => some .ctrl
  | _ => none

/-- Whether the frame control field announces a secured frame. -/
def secured (fcf : UInt8) : Bool := fcf &&& fcfSec ≠ 0

/-- `lg_frame_type`; a code no frame type has is `none`. -/
def lgFrameType (pdu : Bytes) : Option FrameType :=
  FrameType.ofCode (getByte pdu offFcf &&& fcfTypeMask)

/-- The frame control field of a frame of type `t`, secured or not. -/
def fcfOf (t : FrameType) (sec : Bool) : UInt8 := t.code ||| (if sec then fcfSec else 0)

/-- `lg_frame_hdr_put`, with room for the frame counter of a secured frame. -/
def lgFrameHdrPut (netid : UInt16) (fcf seq : UInt8) (dst src : Addr) : Bytes :=
  putLe16 netid ++ [fcf, seq] ++ putLe16 dst ++ putLe16 src ++
    (if secured fcf then zeros fctrLen else [])

structure FrameHdr where
  fcf : UInt8
  seq : UInt8
  dst : Addr
  src : Addr
  deriving DecidableEq, Repr

/-- `lg_frame_hdr_get`: `none` when the frame is malformed or of another grid. -/
def lgFrameHdrGet (cfg : Config) (pdu : Bytes) (netid : UInt16) : Option FrameHdr :=
  if pdu.length < hdrLen then none
  else if getLe16 pdu offNetid ≠ netid then none
  else
    let fcf := getByte pdu offFcf
    if (if secured fcf then cfg.secOverhead else hdrLen) ≤ pdu.length then
      some ⟨fcf, getByte pdu offSeq, getLe16 pdu offDst, getLe16 pdu offSrc⟩
    else none

@[simp] theorem secured_fcfOf (t : FrameType) (sec : Bool) : secured (fcfOf t sec) = sec := by
  cases t <;> cases sec <;> rfl

@[simp] theorem fcfOf_type (t : FrameType) (sec : Bool) :
    FrameType.ofCode (fcfOf t sec &&& fcfTypeMask) = some t := by
  cases t <;> cases sec <;> rfl

theorem lgFrameHdrPut_length (netid : UInt16) (fcf seq : UInt8) (dst src : Addr) :
    (lgFrameHdrPut netid fcf seq dst src).length = if secured fcf then hdrLenSec else hdrLen := by
  unfold lgFrameHdrPut
  split_ifs <;> rfl

/-- The fields of a header, without the frame counter. -/
def frameFields (netid : UInt16) (fcf seq : UInt8) (dst src : Addr) : Bytes :=
  putLe16 netid ++ [fcf, seq] ++ putLe16 dst ++ putLe16 src

@[simp] theorem frameFields_length (netid : UInt16) (fcf seq : UInt8) (dst src : Addr) :
    (frameFields netid fcf seq dst src).length = hdrLen := rfl

theorem lgFrameHdrPut_fields (netid : UInt16) (fcf seq : UInt8) (dst src : Addr) :
    lgFrameHdrPut netid fcf seq dst src =
      frameFields netid fcf seq dst src ++ if secured fcf then zeros fctrLen else [] := rfl

section

variable (netid : UInt16) (fcf seq : UInt8) (dst src : Addr) (rest : Bytes)

theorem getByte_fields_fcf : getByte (frameFields netid fcf seq dst src ++ rest) offFcf = fcf := rfl

theorem getByte_fields_seq : getByte (frameFields netid fcf seq dst src ++ rest) offSeq = seq := rfl

theorem getLe16_fields_src : getLe16 (frameFields netid fcf seq dst src ++ rest) offSrc = src := by
  have hpre : (putLe16 netid ++ [fcf, seq] ++ putLe16 dst).length = offSrc := rfl
  rw [frameFields, List.append_assoc, getLe16_append_right _ _ _ hpre.le, hpre, Nat.sub_self]
  exact getLe16_putLe16 src _

theorem getLe16_fields_dst : getLe16 (frameFields netid fcf seq dst src ++ rest) offDst = dst := by
  have hpre : (putLe16 netid ++ [fcf, seq]).length = offDst := rfl
  rw [frameFields, List.append_assoc, List.append_assoc, getLe16_append_right _ _ _ hpre.le, hpre,
    Nat.sub_self]
  exact getLe16_putLe16 dst _

theorem getLe16_fields_netid :
    getLe16 (frameFields netid fcf seq dst src ++ rest) offNetid = netid := by
  rw [frameFields, List.append_assoc, List.append_assoc, List.append_assoc]
  exact getLe16_putLe16 netid _

/-- A header that is followed by enough is read back as it was written. -/
theorem lgFrameHdrGet_fields (cfg : Config)
    (hlen : secured fcf → fctrLen + cfg.micLen ≤ rest.length) :
    lgFrameHdrGet cfg (frameFields netid fcf seq dst src ++ rest) netid =
      some ⟨fcf, seq, dst, src⟩ := by
  have hsize : (frameFields netid fcf seq dst src ++ rest).length = hdrLen + rest.length := by
    rw [List.length_append, frameFields_length]
  unfold lgFrameHdrGet
  simp only [getLe16_fields_netid, getLe16_fields_dst, getLe16_fields_src, getByte_fields_seq,
    getByte_fields_fcf, hsize]
  by_cases hs : secured fcf = true
  · have hrest := hlen hs
    rw [if_neg (by omega), if_neg (by simp), if_pos]
    simp only [hs, if_true, Config.secOverhead, hdrLenSec]
    omega
  · rw [if_neg (by omega), if_neg (by simp), if_pos]
    simp only [hs]
    exact Nat.le_add_right _ _

end

end LockGrid
