import XrdBlackhole.OssDir
import XrdBlackhole.SeedFile
import XrdBlackhole.Metrics

/-!
# Space queries

`StatLS` and `StatFS` print into the buffer of the caller and report the length of the
whole text, which `snprintf` returns also when it has cut the text. The report stays
inside the buffer exactly when the text fits.
-/

namespace XrdBlackhole

structure SpaceReply where
  blen : ℤ
  buff : Str
  deriving DecidableEq

/-- `snprintf` of a text without NUL. It keeps the last byte for the terminator, and has
no result for a length which is no `int`. -/
def snprintfTo (blen : BuffLen) (text : Str) : Option SpaceReply :=
  if text.length < 2 ^ 31 then some ⟨text.length, text.take (blen.1.toInt.toNat - 1)⟩ else none

def kReportedSpace : ℤ := 1 * 1024 * 1024 * 1024 * 1024 * 1024

def statLSText (cgroup : Str) (totalSpace usedSpace freeSpace quota maxFreeChunk : ℤ) : Str :=
  "oss.cgroup=".toList ++ cgroup ++ "&oss.space=".toList ++ decimal totalSpace ++
    "&oss.free=".toList ++ decimal freeSpace ++ "&oss.maxf=".toList ++ decimal maxFreeChunk ++
    "&oss.used=".toList ++ decimal usedSpace ++ "&oss.quota=".toList ++ decimal quota

def formatStatLSResponse (blen : BuffLen) (cgroup : Str)
    (totalSpace usedSpace freeSpace quota maxFreeChunk : ℤ) : Option SpaceReply :=
  snprintfTo blen (statLSText cgroup totalSpace usedSpace freeSpace quota maxFreeChunk)

def statLS (path : CWord) (blen : BuffLen) : Option SpaceReply :=
  let usedSpace := 0
  let freeSpace := kReportedSpace
  formatStatLSResponse blen path.1 kReportedSpace usedSpace freeSpace kReportedSpace freeSpace

def statFSText (free : ℤ) : Str :=
  decimal 1 ++ ' ' :: decimal free ++ ' ' :: decimal 0 ++ ' ' :: decimal 0 ++ ' ' :: decimal 0 ++
    ' ' :: decimal 0

/-- `free` is what the constructor of `XrdOssVSInfo` leaves in `Free`. -/
def statFS (free : Word) (blen : BuffLen) : Option SpaceReply :=
  snprintfTo blen (statFSText free.toInt)

def InsideBuffer (blen : BuffLen) (r : Option SpaceReply) : Prop :=
  ∃ reply, r = some reply ∧ reply.blen < blen.1.toInt ∧ reply.blen = reply.buff.length

theorem snprintfTo_inside_iff (blen : BuffLen) (text : Str) :
    InsideBuffer blen (snprintfTo blen text) ↔ (text.length : ℤ) < blen.1.toInt := by
  have hmax := BitVec.toInt_lt (x := blen.1)
  have hmin := blen.2
  unfold InsideBuffer snprintfTo
  constructor
  · rintro ⟨reply, hreply, hlt, -⟩
    split_ifs at hreply
    obtain rfl := Option.some.inj hreply
    exact hlt
  · intro hlt
    refine ⟨_, if_pos (by omega), hlt, ?_⟩
    rw [List.take_of_length_le (by omega)]

theorem statLSText_length (path : Str) :
    (statLSText path kReportedSpace 0 kReportedSpace kReportedSpace kReportedSpace).length =
      path.length + 128 := by
  have hspace : (decimal kReportedSpace).length = 16 := by decide +kernel
  have hzero : (decimal 0).length = 1 := by decide
  have hkeys : "oss.cgroup=".toList.length + "&oss.space=".toList.length +
      "&oss.free=".toList.length + "&oss.maxf=".toList.length + "&oss.used=".toList.length +
      "&oss.quota=".toList.length = 63 := by decide
  unfold statLSText
  -- the text must not start with a literal, or `simp` evaluates it
  generalize "oss.cgroup=".toList = key at hkeys ⊢
  simp only [List.length_append]
  omega

theorem statFSText_length (free : ℤ) : (statFSText free).length = 10 + (decimal free).length := by
  have hone : (decimal 1).length = 1 := by decide
  have hzero : (decimal 0).length = 1 := by decide
  simp only [statFSText, List.length_append, List.length_cons, hone, hzero]
  omega

/-- For every path and capacity, the reply of a space query stays inside the buffer
exactly when its text, with the terminator, fits. -/
theorem space_reply_inside_iff (path : CWord) (free : Word) (blen : BuffLen) :
    (InsideBuffer blen (statLS path blen) ↔ (path.1.length : ℤ) + 128 < blen.1.toInt) ∧
      (InsideBuffer blen (statFS free blen) ↔
        10 + ((decimal free.toInt).length : ℤ) < blen.1.toInt) := by
  constructor
  · rw [statLS, formatStatLSResponse, snprintfTo_inside_iff, statLSText_length, Nat.cast_add]
    rfl
  · rw [statFS, snprintfTo_inside_iff, statFSText_length, Nat.cast_add]
    rfl

theorem space_reply_outside :
    ¬ InsideBuffer ⟨64, by decide⟩ (statLS ⟨"/f".toList, by decide⟩ ⟨64, by decide⟩) := by
  rw [statLS, formatStatLSResponse, snprintfTo_inside_iff, statLSText_length]
  decide

end XrdBlackhole
