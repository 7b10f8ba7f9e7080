import PagedHeap.Demo

/-!
# Command line

Runs the demonstration and prints its lines.
-/

def main : IO UInt32 := do
  let (code, lines) := PagedHeap.Demo.run
  for line in lines do
    IO.println line
  return code
