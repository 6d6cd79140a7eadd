import OsLabs.RealMode.Machine

/-!
# The timer interrupt: listing

The handler of int 8h as `os_lab_1_part1/code_8_light.LST` and `code_8.LST` list it, from
`020A:0746` on with the procedure `sub_1`, and the way out at `020A:064C` of
`code_8_ending.LST`. `je` and `jne` are the other names of `jz` and `jnz`, `lock` does not
show, and the target of `jmp $-164h` is the one that the note beside it works out. Both files
name their labels from `loc_1` on.
-/

namespace OsLabs.Int8h

open RealMode

/-- The segment of the code. -/
def seg : Word := 0x020A

namespace Handler

def loc_1 : Word := 0x0760
def loc_2 : Word := 0x077C
def loc_3 : Word := 0x078E
def loc_4 : Word := 0x07A3
def loc_5 : Word := 0x07A5
def loc_6 : Word := 0x07D0
def loc_7 : Word := 0x07D5
def loc_8 : Word := 0x07D8
def sub_1 : Word := 0x07B9

end Handler

namespace Ending

def start : Word := 0x064C
def loc_1 : Word := 0x067B
def loc_2 : Word := 0x0682
def loc_3 : Word := 0x0688
def loc_4 : Word := 0x068E
def loc_5 : Word := 0x0697
def loc_6 : Word := 0x06A1
def loc_7 : Word := 0x06A7
def loc_8 : Word := 0x06AA

end Ending

namespace Handler

/-! `code_8_light.LST`, the lines between two labels at a time: `block_1` is at `loc_1`. -/

/-- Up to `loc_1`. -/
def block_0 : List Line :=
  [⟨0x0746, 3, .call sub_1⟩,
   ⟨0x0749, 1, .push .es⟩,
   ⟨0x074A, 1, .push .ds⟩,
   ⟨0x074B, 1, .push .ax⟩,
   ⟨0x074C, 1, .push .dx⟩,
   ⟨0x074D, 3, .mov .ax 0x40⟩,
   ⟨0x0750, 2, .movFromAX .ds⟩,
   ⟨0x0752, 2, .xorAX⟩,
   ⟨0x0754, 2, .movFromAX .es⟩,
   ⟨0x0756, 4, .incWord 0x6C⟩,
   ⟨0x075A, 2, .jnz loc_1⟩,
   ⟨0x075C, 4, .incWord 0x6E⟩]

def block_1 : List Line :=
  [⟨0x0760, 5, .cmpWord 0x6E 0x18⟩,
   ⟨0x0765, 2, .jnz loc_2⟩,
   ⟨0x0767, 6, .cmpWord 0x6C 0xB0⟩,
   ⟨0x076D, 2, .jnz loc_2⟩,
   ⟨0x076F, 3, .movWordAX 0x6E⟩,
   ⟨0x0772, 3, .movWordAX 0x6C⟩,
   ⟨0x0775, 5, .movByte 0x70 1⟩,
   ⟨0x077A, 2, .orAL 8⟩]

def block_2 : List Line :=
  [⟨0x077C, 1, .push .ax⟩,
   ⟨0x077D, 4, .decByte 0x40⟩,
   ⟨0x0781, 2, .jnz loc_3⟩,
   ⟨0x0783, 5, .andByte 0x3F 0xF0⟩,
   ⟨0x0788, 2, .movAL 0x0C⟩,
   ⟨0x078A, 3, .mov .dx 0x03F2⟩,
   ⟨0x078D, 1, .outDX⟩]

def block_3 : List Line :=
  [⟨0x078E, 1, .pop .ax⟩,
   ⟨0x078F, 6, .testWord 0x314 4⟩,
   ⟨0x0795, 2, .jnz loc_4⟩,
   ⟨0x0797, 1, .lahf⟩,
   ⟨0x0798, 2, .xchg⟩,
   ⟨0x079A, 1, .push .ax⟩,
   ⟨0x079B, 5, .callFarES 0x70⟩,
   ⟨0x07A0, 2, .jmp loc_5⟩,
   ⟨0x07A2, 1, .nop⟩]

def block_4 : List Line :=
  [⟨0x07A3, 2, .int 0x1C⟩]

def block_5 : List Line :=
  [⟨0x07A5, 3, .call sub_1⟩,
   ⟨0x07A8, 2, .movAL 0x20⟩,
   ⟨0x07AA, 2, .outImm 0x20⟩,
   ⟨0x07AC, 1, .pop .dx⟩,
   ⟨0x07AD, 1, .pop .ax⟩,
   ⟨0x07AE, 1, .pop .ds⟩,
   ⟨0x07AF, 1, .pop .es⟩,
   ⟨0x07B0, 3, .jmp Ending.start⟩]

/-- The procedure `sub_1` up to `loc_6`. -/
def block_sub_1 : List Line :=
  [⟨0x07B9, 1, .push .ds⟩,
   ⟨0x07BA, 1, .push .ax⟩,
   ⟨0x07BB, 3, .mov .ax 0x40⟩,
   ⟨0x07BE, 2, .movFromAX .ds⟩,
   ⟨0x07C0, 1, .lahf⟩,
   ⟨0x07C1, 6, .testWord 0x314 0x2400⟩,
   ⟨0x07C7, 2, .jnz loc_7⟩,
   ⟨0x07C9, 7, .andWord 0x314 0xFDFF⟩]

def block_6 : List Line :=
  [⟨0x07D0, 1, .sahf⟩,
   ⟨0x07D1, 1, .pop .ax⟩,
   ⟨0x07D2, 1, .pop .ds⟩,
   ⟨0x07D3, 2, .jmp loc_8⟩]

def block_7 : List Line :=
  [⟨0x07D5, 1, .cli⟩,
   ⟨0x07D6, 2, .jmp loc_6⟩]

def block_8 : List Line :=
  [⟨0x07D8, 1, .ret⟩]

def lines : List Line :=
  block_0 ++ block_1 ++ block_2 ++ block_3 ++ block_4 ++ block_5 ++ block_sub_1 ++ block_6 ++
    block_7 ++ block_8

end Handler

namespace Ending

/-! `code_8_ending.LST`. -/

def block_0 : List Line :=
  [⟨0x064C, 1, .push .ds⟩,
   ⟨0x064D, 1, .push .ax⟩,
   ⟨0x064E, 3, .mov .ax 0x40⟩,
   ⟨0x0651, 2, .movFromAX .ds⟩,
   ⟨0x0653, 6, .testWord 0x314 0x2400⟩,
   ⟨0x0659, 2, .jnz loc_8⟩,
   ⟨0x065B, 1, .push .bp⟩,
   ⟨0x065C, 2, .movBPSP⟩,
   ⟨0x065E, 3, .movAXBP 0x0A⟩,
   ⟨0x0661, 1, .pop .bp⟩,
   ⟨0x0662, 3, .testAX 0x100⟩,
   ⟨0x0665, 2, .jnz loc_8⟩,
   ⟨0x0667, 3, .testAX 0x200⟩,
   ⟨0x066A, 2, .jz loc_4⟩,
   ⟨0x066C, 7, .orWord 0x314 0x200⟩,
   ⟨0x0673, 6, .testWord 0x314 3⟩,
   ⟨0x0679, 2, .jnz loc_8⟩]

def block_1 : List Line :=
  [⟨0x067B, 2, .xchg⟩,
   ⟨0x067D, 1, .cld⟩,
   ⟨0x067E, 2, .testAL 4⟩,
   ⟨0x0680, 2, .jnz loc_7⟩]

def block_2 : List Line :=
  [⟨0x0682, 2, .testAL 8⟩,
   ⟨0x0684, 2, .jnz loc_5⟩,
   ⟨0x0686, 2, .jo loc_6⟩]

def block_3 : List Line :=
  [⟨0x0688, 1, .sahf⟩,
   ⟨0x0689, 1, .pop .ax⟩,
   ⟨0x068A, 1, .pop .ds⟩,
   ⟨0x068B, 3, .retf 2⟩]

def block_4 : List Line :=
  [⟨0x068E, 7, .andWord 0x314 0xFDFF⟩,
   ⟨0x0695, 2, .jmp loc_1⟩]

def block_5 : List Line :=
  [⟨0x0697, 2, .jo loc_3⟩,
   ⟨0x0699, 1, .push .ax⟩,
   ⟨0x069A, 2, .movAL 0x7F⟩,
   ⟨0x069C, 2, .addAL 2⟩,
   ⟨0x069E, 1, .pop .ax⟩,
   ⟨0x069F, 2, .jmp loc_3⟩]

def block_6 : List Line :=
  [⟨0x06A1, 1, .push .ax⟩,
   ⟨0x06A2, 2, .xorAL⟩,
   ⟨0x06A4, 1, .pop .ax⟩,
   ⟨0x06A5, 2, .jmp loc_3⟩]

def block_7 : List Line :=
  [⟨0x06A7, 1, .std⟩,
   ⟨0x06A8, 2, .jmp loc_2⟩]

def block_8 : List Line :=
  [⟨0x06AA, 1, .pop .ax⟩,
   ⟨0x06AB, 1, .pop .ds⟩,
   ⟨0x06AC, 1, .iret⟩]

def lines : List Line :=
  block_0 ++ block_1 ++ block_2 ++ block_3 ++ block_4 ++ block_5 ++ block_6 ++ block_7 ++ block_8

end Ending

def listing : List Line := Ending.lines ++ Handler.lines

/-- The entry of the handler. -/
def entry : Word := 0x0746

/-- No two lines are at one offset. -/
theorem fetch_of_mem : ∀ l ∈ listing, fetch seg listing seg l.ip = some l := by
  decide +kernel

end OsLabs.Int8h
