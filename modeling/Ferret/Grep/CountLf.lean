import Ferret.Lib.Chunks
import Ferret.Verify.LineRuns

/-!
# Counting the LFs of a text

The LFs of a text are counted block by block, in as many byte-wide lanes as a
block has bytes: a lane sees one byte of each block. A lane holds at most 255,
so a run of 255 blocks ends with its lanes summed up; its last partial block
is counted bytewise.
-/

namespace Ferret.Grep

open Verify

def LANES : ℕ := 64

/-- Each lane sees its byte of a block. -/
def add_block (lanes : List UInt8) (block : Bytes) : List UInt8 :=
  List.zipWith (fun lane byte => lane + if byte = LF then 1 else 0) lanes block

/-- The whole blocks of a run. -/
def blocks (run : Bytes) : List Bytes :=
  (List.range (run.length / LANES)).map fun c => (run.drop (c * LANES)).take LANES

/-- The LFs of at most 255 blocks and a partial one. -/
def count_run (run : Bytes) : ℕ :=
  let lanes := (blocks run).foldl add_block (List.replicate LANES 0)
  let tail := run.drop (run.length / LANES * LANES)
  (lanes.map UInt8.toNat).sum + tail.countP (· == LF)

/-- The LFs in `bytes`. -/
def count_lf (bytes : Bytes) : ℕ :=
  ((Chunked.cut (255 * LANES) bytes).map count_run).sum

end Ferret.Grep
