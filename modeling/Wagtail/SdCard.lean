import Wagtail.Library.Bus
import Wagtail.Sd

/-!
# Initialization of the SD card

The constructor of `sd` and `sd::initialize_card`, which poll the controller, up to the first
block read. Everything that they wait for is an answer of the controller.
-/
namespace WagtailSdCard

open Bus (Driver read write loop)
open WagtailSd (cc tc brr cto dto dcrc deb ddir rspType ccce dp indx bits)

/-! ## Registers -/

def sysconfig : Nat := 0x000
def sysstatus : Nat := 0x014
def con : Nat := 0x02c
def blk : Nat := 0x104
def arg : Nat := 0x108
def cmd : Nat := 0x10c
def rsp10 : Nat := 0x110
def hctl : Nat := 0x128
def sysctl : Nat := 0x12c
def stat : Nat := 0x130
def ie : Nat := 0x134
def ise : Nat := 0x138
def capa : Nat := 0x140
def curCapa : Nat := 0x148

/-- More bits of the registers. -/
def softreset : Nat := 1
def resetdone : Nat := 0
def init : Nat := 1
def sdbp : Nat := 8
def dtw : Nat := 1
def sdvs : Nat := 9
def sra : Nat := 24
def clkd : Nat := 6
def cen : Nat := 2
def ics : Nat := 1
def ice : Nat := 0
def cerr : Nat := 28
def cie : Nat := 19
def ccrc : Nat := 17
def vs30 : Nat := 25
def vs18 : Nat := 26
def cur1v8 : Nat := 16
def cur3v0 : Nat := 8

/-- The complement of a word. -/
def complement (word : Nat) : Nat := 0xffffffff ^^^ word

/-! ## Polling -/

/-- The variables of the driver that the initialization uses: `rca` has 16 bits. -/
structure Memory where
  rca : Nat
  deriving DecidableEq, Repr

abbrev SdDriver := Driver Memory

/-- `io::or_register`. -/
def orRegister (data register : Nat) : SdDriver Unit := do
  let temp ← read register
  write register (temp ||| data)

/-- `io::and_register`. -/
def andRegister (data register : Nat) : SdDriver Unit := do
  let temp ← read register
  write register (temp &&& data)

/-- The loop that waits for a bit of a register. -/
def waitForBit (register bit : Nat) : SdDriver Unit := loop do
  let value ← read register
  pure (if value.testBit bit then some () else none)

/-- `sd::sd_status`, but for the one that is never used. -/
inductive SdStatus where
  | cardError
  | dataTimeoutError
  | dataEndBitError
  | dataCrcError
  | commandCrcError
  | commandIndexError
  | commandTimeout
  | commandComplete
  deriving DecidableEq, Repr

/-- One round of `sd::wait_for_status`. -/
def statusOf (status : Nat) : Option SdStatus :=
  if status.testBit dcrc then some .dataCrcError
  else if status.testBit dto then some .dataTimeoutError
  else if status.testBit deb then some .dataEndBitError
  else if status.testBit ccrc then some .commandCrcError
  else if status.testBit cerr then some .cardError
  else if status.testBit cie then some .commandIndexError
  else if status.testBit cto then some .commandTimeout
  else if status.testBit cc then some .commandComplete
  else none

/-- `sd::wait_for_status`. -/
def waitForStatus : SdDriver SdStatus := loop do
  let status ← read stat
  pure (statusOf status)

/-! ## Commands -/

/-- The head of every function that sends a command. -/
def send (enabled argument command : Nat) : SdDriver Unit := do
  write stat 0xffffffff
  write ie enabled
  write arg argument
  write cmd command

/-- A command, and whether it is completed. -/
def sendCommand (enabled argument command : Nat) : SdDriver Bool := do
  send enabled argument command
  let status ← waitForStatus
  pure (status == .commandComplete)

/-- `sd::send_cmd0`. -/
def sendCmd0 : SdDriver Unit := do
  send (bits [cc]) 0 0
  waitForBit stat cc

/-- `sd::send_cmd2`. -/
def sendCmd2 : SdDriver Bool :=
  sendCommand (bits [cc, cto, cerr]) 0 (2 <<< indx ||| 1 <<< rspType)

/-- `sd::send_cmd3`. -/
def sendCmd3 : SdDriver Bool := do
  if ← sendCommand (bits [cc, cto]) 0 (3 <<< indx ||| 0x2 <<< rspType) then
    let reply ← read rsp10
    Bus.set { rca := reply / 2 ^ 16 % 2 ^ 16 }
    pure true
  else pure false

/-- `sd::send_cmd7`. -/
def sendCmd7 : SdDriver Bool := do
  let memory ← Bus.get
  sendCommand (bits [cc, cto]) (memory.rca <<< 16) (7 <<< indx ||| 0x3 <<< rspType)

/-- `sd::send_cmd8`. -/
def sendCmd8 : SdDriver Bool := do
  if ← sendCommand (bits [cc, cto]) (1 <<< 8 ||| 0xaa) (8 <<< indx ||| 0x2 <<< rspType) then
    let reply ← read rsp10
    if reply &&& 0xaa ≠ 0xaa then pure false
    else pure (reply.testBit 8)
  else pure false

/-- `sd::send_cmd55`. -/
def sendCmd55 : SdDriver Bool := do
  let memory ← Bus.get
  sendCommand (bits [cc, cto]) (memory.rca <<< 16) (55 <<< indx ||| 0x2 <<< rspType)

/-- `sd::send_acmd6`. -/
def sendAcmd6 : SdDriver Bool := do
  if ← sendCmd55 then sendCommand (bits [cc, cto]) 0x00000002 (6 <<< indx ||| 0x2 <<< rspType)
  else pure false

/-- The result for an error. -/
def minusOne : Nat := 0xffffffff

/-- `sd::send_acmd41`. -/
def sendAcmd41 : SdDriver Nat := do
  if ← sendCmd55 then
    if ← sendCommand (bits [cc, cto]) (1 <<< 30 ||| 1 <<< 28 ||| 1 <<< 18 ||| 1 <<< 17)
        (41 <<< indx ||| 0x2 <<< rspType) then read rsp10
    else pure minusOne
  else pure minusOne

/-- `sd::send_cmd17`. -/
def sendCmd17 (address : Nat) : SdDriver Unit := do
  write ie (bits [cc, tc, cto, brr, dcrc, deb, dto])
  write arg address
  write cmd (17 <<< indx ||| 0x2 <<< rspType ||| bits [dp, ccce, ddir])

/-! ## Initialization -/

/-- `sd::switch_clock_divider`. -/
def switchClockDivider (_divider : Nat) : SdDriver Unit := do
  let sysctlRegister ← read sysctl
  let sysctlRegister := sysctlRegister &&& complement (0x3ff <<< clkd ||| bits [cen])
  let sysctlRegister := sysctlRegister ||| 240 <<< clkd
  write sysctl sysctlRegister
  waitForBit sysctl ics
  orRegister (bits [cen]) sysctl

/-- Rounds of the initialization stream. -/
def sendStream : Nat → SdDriver Unit
  | 0 => pure ()
  | n + 1 => do
    write cmd 0
    waitForBit stat cc
    write stat 0xffffffff
    sendStream n

/-- Whether the loop around `sd::send_acmd41` ends, and whether the initialization goes on. -/
def goesOn (result : Nat) : Option Bool :=
  if result = minusOne then some false else if result.testBit 31 then some true else none

def waitWhileBusy : SdDriver Bool := loop do
  let result ← sendAcmd41
  pure (goesOn result)

/-- The bus is four bits wide if the card accepts it. -/
def widenBus : SdDriver Unit := do
  if ← sendAcmd6 then orRegister (bits [dtw]) hctl
  else pure ()

/-- The end of `sd::initialize_card`. The first block read is that of the partition table, which
an idle driver starts at once. -/
def finishCard : SdDriver Unit := do
  widenBus
  write stat 0xffffffff
  write ise 0xffffffff
  sendCmd17 0

/-- `sd::initialize_card`. -/
def initializeCard : SdDriver Unit := do
  switchClockDivider 0x3ff
  write ie (bits [cc])
  write stat 0xffffffff
  orRegister (bits [init]) con
  sendStream 3
  andRegister (complement (bits [init])) con
  switchClockDivider 240
  sendCmd0
  if ← sendCmd8 then
    if ← waitWhileBusy then
      if ← sendCmd2 then
        if ← sendCmd3 then
          if ← sendCmd7 then finishCard
          else pure ()
        else pure ()
      else pure ()
    else pure ()
  else pure ()

/-- `sd::sd`, for the registers of the module. -/
def initializeModule : SdDriver Unit := do
  write sysconfig (bits [softreset])
  waitForBit sysstatus resetdone
  orRegister (bits [sra]) sysctl
  waitForBit sysctl sra
  orRegister (bits [vs30, vs18]) capa
  write curCapa (220 <<< cur1v8 ||| 220 <<< cur3v0)
  write hctl (0x6 <<< sdvs)
  orRegister (bits [sdbp]) hctl
  waitForBit hctl sdbp
  orRegister (bits [ice]) sysctl
  andRegister (complement (0x3ff <<< clkd ||| bits [cen])) sysctl
  orRegister (0x3ff <<< clkd) sysctl
  waitForBit sysctl ics
  orRegister (bits [cen]) sysctl
  write blk 0x200
  initializeCard

/-- The constructor, for a controller that answers with these words. -/
def newSd (replies : List Nat) : Bus.Outcome Memory Unit :=
  initializeModule ⟨replies, [], ⟨0⟩⟩

end WagtailSdCard
