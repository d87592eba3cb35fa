import Mathlib.Algebra.Group.Nat.Defs
import Mathlib.Data.List.TakeWhile

/-!
# Source — constants and C data

The constants of `config.h.in` and `kafka-table.c`, C strings, and the machine integers the code
computes with.  A C string is its bytes before the terminator, so it holds no NUL; a `char *`
that may be NULL is an `Option CStr`.
-/

namespace TrigEmit

/-- A C string: the bytes before its terminator. -/
abbrev CStr := {bs : List UInt8 // (0 : UInt8) ∉ bs}

namespace CStr

def empty : CStr := ⟨[], by simp⟩

/-- What a C function reads of a terminated copy of `bs`: the bytes before the first NUL. -/
def ofBytes (bs : List UInt8) : CStr :=
  ⟨bs.takeWhile (· ≠ 0), fun h => by simpa using List.mem_takeWhile_imp h⟩

/-- A string literal of the source. -/
def lit (s : String) : CStr := ofBytes (s.toList.map fun c => UInt8.ofNat c.toNat)

@[simp] theorem ofBytes_val (s : CStr) : ofBytes s.1 = s := by
  refine Subtype.ext ?_
  rw [ofBytes, List.takeWhile_eq_self_iff]
  intro b hb
  exact decide_eq_true fun e => s.2 (e ▸ hb)

end CStr

/-- `zstr`: NULL or empty. -/
def zstr : Option CStr → Bool
  | none   => true
  | some s => s.1.isEmpty

/-- `KAFKA_TABLE_INITIAL_SLOTS` -/
def initialSlots : Nat := 8

/-- `KAFKA_MAX_TOPIC_LEN` -/
def maxTopicLen : Nat := 249

/-- `KAFKA_ERROR_LOG_INTERVAL_S` -/
def errorLogInterval : Int := 60

/-- `sizeof(kafka_param_t)`: two pointers. -/
def paramSize : Nat := 16

/-- `sizeof(tek_topic_t *)` -/
def topicSize : Nat := 8

/-- A `size_t` computation. -/
def sizeT (n : Nat) : Nat := n % 2 ^ 64

/-- `PTRDIFF_MAX`: no allocation is larger. -/
def ptrdiffMax : Nat := 2 ^ 63 - 1

/-- The cast `(int) n` of a `size_t`. -/
def cInt (n : Nat) : Int := Int.bmod n (2 ^ 32)

/-- `librdkafka` accepts no payload above `message.max.bytes`, which is at most this. -/
def messageMaxBytes : Nat := 1000000000

/-- A librdkafka error code (`rd_kafka_resp_err_t`). -/
abbrev RespErr := Int

/-- `RD_KAFKA_RESP_ERR_NO_ERROR` -/
def noError : RespErr := 0

/-- `RD_KAFKA_RESP_ERR__QUEUE_FULL` -/
def queueFull : RespErr := -184

end TrigEmit
