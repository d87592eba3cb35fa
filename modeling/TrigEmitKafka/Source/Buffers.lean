import TrigEmitKafka.Source.Table

/-!
# Source — the local buffers

The fixed `char` arrays the code formats and copies into, byte by byte.  A function returns
nothing where C would read or write outside an array, or form a pointer beyond one.

`Source/Table.lean` and `Source/Commands.lean` keep of a buffer what is before its terminator;
here is the same code on the buffer itself.
-/

namespace TrigEmit

/-- A `char` array. -/
abbrev Buffer := List UInt8

/-- A `size_t` difference. -/
def sizeSub (a b : Nat) : Nat := (a + 2 ^ 64 - b) % 2 ^ 64

/-- What `snprintf` returns for `text`. -/
def snprintfResult (text : List UInt8) : Int := if text.length < 2 ^ 31 then text.length else -1

namespace Buffer

/-- `bs` written from `off` on. -/
def write (buf : Buffer) (off : Nat) (bs : List UInt8) : Option Buffer :=
  if off + bs.length ≤ buf.length then some (buf.take off ++ bs ++ buf.drop (off + bs.length))
  else none

/-- `snprintf(buf + off, size, ...)`, where `text` is what there is to format. -/
def snprintf (buf : Buffer) (off size : Nat) (text : List UInt8) : Option (Buffer × Int) :=
  if off < buf.length then
    (buf.write off (if size = 0 then [] else text.take (size - 1) ++ [0])).map
      fun b => (b, snprintfResult text)
  else none

/-- `memcpy(buf, arg, len); buf[len] = '\0';` -/
def copyArg (buf : Buffer) (arg : List UInt8) (len : Nat) : Option Buffer :=
  if len ≤ arg.length then (buf.write 0 (arg.take len)).bind fun b => b.write len [0] else none

/-- What a C function reads of it, where it is terminated. -/
def cstr (buf : Buffer) : Option CStr := if 0 ∈ buf then some (CStr.ofBytes buf) else none

end Buffer

/-- What `kafka_table_describe_params` prints of a parameter. -/
def shownParam (p : CStr × CStr) : List UInt8 :=
  paramLine p.1 (if kafkaParamIsSecret p.1 then .lit "********" else p.2)

/-- The loop of `kafka_table_describe_params`, on its buffer. -/
def describeInto (buflen : Nat) : List (CStr × CStr) → Nat → Buffer → Option Buffer
  | [],      _,    buf => some buf
  | p :: ps, used, buf =>
      if sizeT (used + 1) < buflen then
        (buf.snprintf used (sizeSub buflen used) (shownParam p)).bind fun r =>
          if r.2 < 0 then some r.1 else describeInto buflen ps (sizeT (used + r.2.toNat)) r.1
      else some buf

/-- `kafka_table_describe_params` on its buffer, which it terminates first. -/
def describeBuffer (ps : List (CStr × CStr)) (buf : Buffer) : Option Buffer :=
  (buf.write 0 [0]).bind (describeInto buf.length ps 0)

end TrigEmit
