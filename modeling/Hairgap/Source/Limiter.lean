import Hairgap.Source.Status
import Mathlib.Data.Rat.Defs

/-!
# The rate limiter

limiter.c:27-95, sender.c:124-135. The clock is the list of its readings to come; a function of the
limiter takes those it makes off the front. Time and rates are exact rationals, not doubles, and
the length of a sleep is left to the readings.
-/
namespace Hairgap.Source

def hlimChkPeriod : Nat := 1000

structure Timeval where
  tvSec : Int
  tvUsec : Int
  deriving DecidableEq, Repr

def Timeval.seconds (t : Timeval) : Rat := t.tvSec + t.tvUsec / 1000000

def timeDiff (before after : Timeval) : Rat := after.seconds - before.seconds

structure HgapLimiter where
  byterate : Rat
  nPktSent : Nat
  nBytesSent : Nat
  since : Timeval
  totalDataSent : Nat
  deriving DecidableEq, Repr

def hgapLimiterResetRate (hlim : HgapLimiter) (now : Timeval) : HgapLimiter :=
  { hlim with since := now, nPktSent := 0, nBytesSent := 0 }

def hgapLimiterGetCurrentRate (hlim : HgapLimiter) (now : Timeval) : Rat :=
  let diff := timeDiff hlim.since now
  if diff = 0 then 0 else hlim.nBytesSent / diff

def hgapLimiterNew (byterate : Rat) (now : Timeval) : HgapLimiter :=
  { byterate, nPktSent := 0, nBytesSent := 0, since := now, totalDataSent := 0 }

/-- The loop of `hgap_limiter_limit` around `usleep`: the readings behind the rate check that
ends it. `none` when none of them does. -/
def limitWait (hlim : HgapLimiter) : List Timeval → Option (List Timeval)
  | [] => none
  | now :: clock =>
    if hgapLimiterGetCurrentRate hlim now > hlim.byterate then limitWait hlim clock else some clock

/-- The call returns `HGAP_SUCCESS`, or `none` when the readings do not suffice for that. -/
def hgapLimiterLimit (hlim : HgapLimiter) (len : Nat) (clock : List Timeval) :
    Option (HgapLimiter × List Timeval) :=
  let hlim := { hlim with
    totalDataSent := hlim.totalDataSent + len
    nPktSent := hlim.nPktSent + 1
    nBytesSent := hlim.nBytesSent + len }
  if hlim.byterate ≠ 0 ∧ hlim.nPktSent > hlimChkPeriod then
    match limitWait hlim clock with
    | some (now :: clock) => some (hgapLimiterResetRate hlim now, clock)
    | _ => none
  else some (hlim, clock)

/-- `hgap_sender_send` behind a `sendto` that returned `ret`. -/
def hgapSenderSend (hlim : HgapLimiter) (ret : Int) (clock : List Timeval) :
    Option (HgapLimiter × List Timeval) :=
  if 0 ≤ ret then hgapLimiterLimit hlim ret.toNat clock else some (hlim, clock)

end Hairgap.Source
