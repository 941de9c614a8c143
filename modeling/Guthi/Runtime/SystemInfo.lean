import Guthi.Runtime.CpuInfo

/-!
# Guthi — reading the system information

`GetSystemInfo` and `GetMemoryInfo` of `runtime/parser_cpuinfo.cpp` as functions of what the
commands print. Each output is read into a buffer of 1024 characters and a NUL that has just been
allocated; what the memory held before is a parameter.
-/

namespace Guthi

def buffSize : Nat := 1024

/-- What memory from `new char[buff_size + 1]` happens to hold. -/
abbrev Leftover := Vector UInt8 (buffSize + 1)

/-- The buffer after `read(fileno(f), buffer, buff_size)` and `buffer[buff_size] = '\0'`. -/
def readBuffer (leftover : Leftover) (output : Bytes) : Bytes :=
  output.take buffSize ++ ((leftover.toList.take buffSize).drop output.length ++ [0])

/-- Memory that happens to be zero. -/
def zeroedMemory : Leftover := Vector.replicate _ 0

theorem readBuffer_full (leftover : Leftover) {output : Bytes} (h : buffSize ≤ output.length) :
    readBuffer leftover output = output.take buffSize ++ [0] := by
  have hnone : (leftover.toList.take buffSize).drop output.length = [] := by
    rw [List.drop_eq_nil_iff, List.length_take]
    omega
  rw [readBuffer, hnone, List.nil_append]

/-- In zeroed memory the output is followed by two NULs at least. -/
theorem readBuffer_zeroed {output : Bytes} (h : output.length < buffSize) :
    ∃ rest, readBuffer zeroedMemory output = output ++ 0 :: 0 :: rest := by
  have hzeros : (zeroedMemory.toList.take buffSize).drop output.length =
      List.replicate (buffSize - output.length) 0 := by
    rw [zeroedMemory, Vector.toList_replicate, List.take_replicate, List.drop_replicate]
    rfl
  obtain ⟨n, hn⟩ := Nat.exists_eq_add_of_lt h
  refine ⟨List.replicate n 0, ?_⟩
  rw [readBuffer, List.take_of_length_le (by omega), hzeros, hn]
  have hcount : output.length + n + 1 - output.length = n + 1 := by omega
  rw [hcount, List.replicate_succ, List.cons_append, ← List.replicate_succ', List.replicate_succ]

/-- `Parser parser` with `is_parsing` and `tokenizer.ptr` set. -/
def Parser.fresh (buffer : Bytes) : Parser := { tokenizer := { ptr := buffer }, isParsing := true }

/-- `parser.tokenizer.ptr = buffer` -/
def Parser.setPtr (p : Parser) (buffer : Bytes) : Parser :=
  { p with tokenizer := { p.tokenizer with ptr := buffer } }

/-- `GetSystemInfo` where `cat /proc/cpuinfo | grep MHz` prints `cpuInfo` and
`lscpu | grep "CPU max MHz"` prints `lscpu`. -/
def getSystemInfo (m : Machine) (leftover₁ leftover₂ : Leftover) (cpuInfo lscpu : Bytes)
    (fuel : Nat) : Except ParserFault ProcessorStatus := do
  let (p, status) ← parseCpuInfo m fuel (.fresh (readBuffer leftover₁ cpuInfo)) {}
  let (_, status) ← parseMaximumCpuHz m fuel (p.setPtr (readBuffer leftover₂ lscpu)) status
  return status

/-- `GetMemoryInfo` where `cat /proc/meminfo | grep MemAvailable` prints `memInfo`. -/
def getMemoryInfo (m : Machine) (leftover : Leftover) (memInfo : Bytes) (status : MemoryStatus)
    (fuel : Nat) : Except ParserFault MemoryStatus :=
  parseMemoryFreeSpace m fuel (.fresh (readBuffer leftover memInfo)) status

theorem mem_readBuffer (leftover : Leftover) (output : Bytes) : 0 ∈ readBuffer leftover output := by
  simp [readBuffer]

end Guthi
