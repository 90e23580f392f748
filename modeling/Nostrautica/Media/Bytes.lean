/-
Bytes and the edits that are laid over them: the shared plumbing of
`app/src/lib/media/strip-metadata.ts`.

A byte past the end reads as zero, as `undefined` does under a bitwise operator.
-/
import Nostrautica.Js.Text
import Nostrautica.Transition.Loop

namespace Nostrautica.Media

open Js

/-- The bytes of a `Blob` or a `Uint8Array`. -/
abbrev Bytes := List UInt8

/-- A `MetadataStripError` carries its message. -/
abbrev Strip := Walk String

/-- `fail(why)`. -/
def fail {α : Type} (why : String) : Strip α := .failed why

/-- `b[i]`, as a number. -/
def u8 (b : Bytes) (i : Nat) : Nat := (b.getD i 0).toNat

/-- `b.slice(from, to)`. -/
def slice (b : Bytes) (start stop : Nat) : Bytes := (b.take stop).drop start

/-- `b.set(bytes, at)`. -/
def set (b : Bytes) (offset : Nat) (bytes : Bytes) : Bytes :=
  b.mapIdx fun i x => if offset ≤ i then bytes.getD (i - offset) x else x

/-- `b.fill(0, from, to)`. -/
def zero (b : Bytes) (start stop : Nat) : Bytes := b.mapIdx fun i x => if start ≤ i ∧ i < stop then 0 else x

/-- `readAt(file, start, len)`. -/
def readAt (file : Bytes) (start len : Nat) : Strip Bytes :=
  if start + len > file.length then fail "read past end of file" else .done (slice file start (start + len))

/-- `ascii(b, at, len)`. -/
def ascii (b : Bytes) (offset len : Nat) : JsString := (List.range len).map fun i => codeUnit (u8 b (offset + i))

/-- A text in a message. -/
def shown (s : JsString) : String := String.ofList (s.map fun c => Char.ofNat c.val)

/-- `u32be(b, at)`. -/
def u32be (b : Bytes) (i : Nat) : Nat :=
  u8 b i * 2 ^ 24 + u8 b (i + 1) * 2 ^ 16 + u8 b (i + 2) * 2 ^ 8 + u8 b (i + 3)

/-- `Number.MAX_SAFE_INTEGER`. -/
def maxSafeInteger : Nat := 2 ^ 53 - 1

/-- `u64be(b, at)`. -/
def u64be (b : Bytes) (i : Nat) : Strip Nat :=
  let v := u32be b i * 2 ^ 32 + u32be b (i + 4)
  if v > maxSafeInteger then fail "64-bit size out of range" else .done v

/-- `u32le(b, at)`. -/
def u32le (b : Bytes) (i : Nat) : Nat :=
  u8 b i + u8 b (i + 1) * 2 ^ 8 + u8 b (i + 2) * 2 ^ 16 + u8 b (i + 3) * 2 ^ 24

/-! ## Edits -/

/-- `Edit`: bytes, or zeros, over a range of the original. -/
inductive Edit
  | bytes (offset : Nat) (bytes : Bytes)
  | zeros (offset : Nat) (zeros : Nat)
  deriving DecidableEq

namespace Edit

def offset : Edit → Nat
  | bytes offset _ | zeros offset _ => offset

/-- `editLen(e)`. -/
def len : Edit → Nat
  | bytes _ b => b.length
  | zeros _ n => n

def stop (e : Edit) : Nat := e.offset + e.len

/-- The bytes an edit lays. -/
def content : Edit → Bytes
  | bytes _ b => b
  | zeros _ n => List.replicate n 0

end Edit

/-- The loop of `assemble` that merges sorted edits; `merged` is reversed. -/
def mergeEdits (start stop : Nat) : List Edit → List Edit → Strip (List Edit)
  | [], merged => .done merged.reverse
  | e :: rest, merged =>
    if e.offset < start ∨ e.stop > stop then fail "edit outside the file"
    else
      match merged, e with
      | .zeros offset n :: earlier, .zeros o m =>
        if o < offset + n then mergeEdits start stop rest (.zeros offset (max n (o + m - offset)) :: earlier)
        else mergeEdits start stop rest (e :: merged)
      | prev :: _, _ => if e.offset < prev.stop then fail "overlapping edits" else mergeEdits start stop rest (e :: merged)
      | [], _ => mergeEdits start stop rest (e :: merged)

/-- The parts of the output from `pos` on. -/
def layEdits (file : Bytes) (stop : Nat) : Nat → List Edit → Bytes
  | pos, [] => slice file pos stop
  | pos, e :: rest => slice file pos e.offset ++ e.content ++ layEdits file stop e.stop rest

/-- `assemble(file, edits, start, end)`. -/
def assemble (file : Bytes) (edits : List Edit) (start stop : Nat) : Strip Bytes := do
  let sorted := (edits.filter fun e => e.len > 0).mergeSort fun a b => a.offset ≤ b.offset
  let merged ← mergeEdits start stop sorted []
  .done (layEdits file stop start merged)

end Nostrautica.Media
