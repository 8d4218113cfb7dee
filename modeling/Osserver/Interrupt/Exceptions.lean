import Osserver.Format.Decimal
import Osserver.Format.Klog
import Osserver.Interrupt.Transparency

/-!
# Exceptions

The handlers of exceptions of `i386/pc/idt.asm`, and `handle_exception` of
`generic/sys/interrupt/exception.c`. A handler never returns: it puts the registers on the
stack as the arguments of `handle_exception`, which logs them, and then stays where it is.
The interrupt flag is clear all the while, so nothing comes in between.
-/

namespace Osserver

/-- The next instruction of `idt.asm` is executed. -/
def Target.step (target : Target) (m : Machine) : Option Machine :=
  (target.fetch m).bind (fun place => target.execute place.1 place.2.1 m place.2.2)

/-- A number of instructions, one after the other. -/
def Target.steps (target : Target) : ℕ → Machine → Option Machine
  | 0, m => some m
  | count + 1, m => (target.step m).bind (target.steps count)

/-- Instructions of `idt.asm` lead from one state to the other. -/
def Target.Reaches (target : Target) (m m' : Machine) : Prop :=
  ∃ count, target.steps count m = some m'

/-- The processor raises an exception behind `idt_init`. -/
def Target.raise (target : Target) (idt : Idt) (m : Machine) (number : Fin 20)
    (code : Option (BitVec 32)) : Option Machine :=
  (idtInit target.handlers idt (BitVec.ofNat 8 number)).gate.map
    (fun gate => (m.deliver gate).deliverCode code)

/-- The arguments of `handle_exception`, in their order. -/
structure ExceptionArguments where
  cs : BitVec 32
  ss : BitVec 32
  ax : BitVec 32
  cx : BitVec 32
  dx : BitVec 32
  bx : BitVec 32
  bp : BitVec 32
  si : BitVec 32
  di : BitVec 32
  interrupt : BitVec 32
  err : BitVec 32

/-- What a function finds behind its return address. -/
def Machine.exceptionArguments (m : Machine) : ExceptionArguments where
  cs := m.stack.word 1
  ss := m.stack.word 2
  ax := m.stack.word 3
  cx := m.stack.word 4
  dx := m.stack.word 5
  bx := m.stack.word 6
  bp := m.stack.word 7
  si := m.stack.word 8
  di := m.stack.word 9
  interrupt := m.stack.word 10
  err := m.stack.word 11

/-- The arguments tell what was interrupted, and by what. The upper halves of the segments may be
anything, and `cs` is that of the handler. -/
structure ExceptionArguments.Tells (arguments : ExceptionArguments) (m : Machine)
    (number : Fin 20) (code : Option (BitVec 32)) : Prop where
  cs : arguments.cs.setWidth 16 = gdtCodeSelector
  ss : arguments.ss.setWidth 16 = m.ss
  ax : arguments.ax = m.registers .eax
  cx : arguments.cx = m.registers .ecx
  dx : arguments.dx = m.registers .edx
  bx : arguments.bx = m.registers .ebx
  bp : arguments.bp = m.registers .ebp
  si : arguments.si = m.registers .esi
  di : arguments.di = m.registers .edi
  interrupt : arguments.interrupt = BitVec.ofNat 32 number
  err : arguments.err = code.getD 0#32

section Steps

variable {target : Target} {idt : Idt} {m m' m'' context : Machine} {stub : Stub} {index : ℕ}
  {instruction : Instruction} {words : List (BitVec 32)}

theorem Target.Reaches.refl (m : Machine) : target.Reaches m m :=
  ⟨0, rfl⟩

theorem Target.Reaches.head (first : target.step m = some m') (rest : target.Reaches m' m'') :
    target.Reaches m m'' := by
  rcases rest with ⟨count, reaches⟩
  refine ⟨count + 1, ?_⟩
  rw [Target.steps, first]
  exact reaches

theorem Target.Reaches.trans (first : target.Reaches m m') (second : target.Reaches m' m'') :
    target.Reaches m m'' := by
  rcases first with ⟨count, reaches⟩
  induction count generalizing m with
  | zero =>
      cases reaches
      exact second
  | succ count ih =>
      rw [Target.steps, Option.bind_eq_some_iff] at reaches
      rcases reaches with ⟨next, isNext, rest⟩
      exact .head isNext (ih rest)

theorem Target.step_at (place : m.eip = target.address stub index)
    (holds : stub.code[index]? = some instruction) :
    target.step m = target.execute stub index m instruction := by
  rw [Target.step, Target.fetch_address place holds]
  rfl

/-- A handler of an exception has come to an instruction, with some words above those that were
there. -/
structure Raised (target : Target) (context m : Machine) (stub : Stub) (index : ℕ)
    (words : List (BitVec 32)) : Prop where
  place : m.eip = target.address stub index
  registers : m.registers = context.registers
  below : context.Below (2 ^ 32) m words
  cs : m.cs = gdtCodeSelector
  disabled : m.eflags.getLsbD interruptFlagBit = false

theorem Machine.Below.push (below : context.Below (2 ^ 32) m words) (word : BitVec 32)
    (pushes : m'.stack = m.stack.push word) (sameSegment : m'.ss = m.ss)
    (room : 4 * (words.length + 1) ≤ context.stack.pointer.toNat) :
    context.Below (2 ^ 32) m' (word :: words) := by
  have pointer := below.pointer
  apply below.pushAll [word] pushes sameSegment
  rw [List.length_singleton]
  omega

/-- The registers that the handler pushes are those of the interrupted code. -/
theorem Raised.pushes (raised : Raised target context m stub index words)
    (registers : List Register) (rest : List Instruction)
    (holds : stub.code.drop index = registers.map .push ++ rest)
    (room : 4 * (words.length + registers.length) ≤ context.stack.pointer.toNat) :
    ∃ m', target.Reaches m m' ∧
      Raised target context m' stub (index + registers.length)
        ((registers.map context.registers).reverse ++ words) ∧
        stub.code.drop (index + registers.length) = rest := by
  induction registers generalizing m index words with
  | nil => exact ⟨m, .refl m, raised, holds⟩
  | cons register registers ih =>
      rw [List.length_cons] at room
      have first : stub.code[index]? = some (.push register) := by
        have head := congrArg List.head? holds
        rw [List.head?_drop] at head
        exact head
      have executes := target.step_at raised.place first
      have others : stub.code.drop (index + 1) = registers.map .push ++ rest := by
        rw [← List.drop_drop, holds]
        rfl
      have pushed : Raised target context
          { m with
            stack := m.stack.push (m.registers register)
            eip := target.address stub (index + 1) } stub (index + 1)
          (context.registers register :: words) := by
        refine ⟨rfl, raised.registers, ?_, raised.cs, raised.disabled⟩
        rw [← raised.registers]
        exact raised.below.push _ rfl rfl (by omega)
      rcases ih pushed others (by rw [List.length_cons]; omega) with ⟨m', reaches, last, atRest⟩
      have length : index + (register :: registers).length = index + 1 + registers.length := by
        rw [List.length_cons]
        omega
      have text : ((register :: registers).map context.registers).reverse ++ words =
          (registers.map context.registers).reverse ++ (context.registers register :: words) := by
        simp
      rw [length, text]
      exact ⟨m', reaches.head executes, last, atRest⟩

theorem Raised.push (raised : Raised target context m stub index words) (word : BitVec 32)
    (holds : stub.code[index]? = some instruction)
    (executes : target.execute stub index m instruction =
      some { m with stack := m.stack.push word, eip := target.address stub (index + 1) })
    (room : 4 * (words.length + 1) ≤ context.stack.pointer.toNat) :
    ∃ m', target.step m = some m' ∧ m'.ss = m.ss ∧
      Raised target context m' stub (index + 1) (word :: words) := by
  refine ⟨_, (target.step_at raised.place holds).trans executes, rfl, rfl, raised.registers, ?_,
    raised.cs, raised.disabled⟩
  exact raised.below.push word rfl rfl room

/-- Whatever the upper half of the word is, the lower one is the segment. -/
theorem Target.segmentWord_low (target : Target) (m : Machine) (segment : SegmentRegister) :
    (target.segmentWord m segment).setWidth 16 = m.segment segment := by
  rw [segmentWord]
  by_cases extends' : target.extendsSegments = true
  · rw [if_pos extends']
    simp
  · rw [if_neg extends']
    apply BitVec.eq_of_getLsbD_eq
    intro bit inside
    have low : (0xFFFF0000#32).getLsbD bit = false := by
      revert bit
      decide
    simp only [BitVec.getLsbD_setWidth, BitVec.getLsbD_or, BitVec.getLsbD_and, low, Bool.and_false,
      Bool.false_or, inside, decide_true, Bool.true_and]
    have wide : bit < 32 := by omega
    simp [wide]

/-- The code that is pushed is on top of the frame. -/
theorem raise_eq {number : Fin 20} {code : Option (BitVec 32)}
    (room : 4 * (code.toList.length + 3) ≤ m.stack.pointer.toNat) :
    ∃ first, target.raise idt m number code = some first ∧
      Raised target m first (.exception number) 0 (code.toList ++ m.frame) := by
  have small := number.isLt
  have vector : (BitVec.ofNat 8 number).toNat = number := by
    rw [BitVec.toNat_ofNat]
    omega
  have isException : ∀ n : Fin 20, (BitVec.ofNat 8 n ≠ 0x22#8 ∧ BitVec.ofNat 8 n ≠ 0x21#8 ∧
      BitVec.ofNat 8 n ≠ 0x20#8) ∧ BitVec.ofNat 8 n ≠ 0xFF#8 := by
    decide
  rcases isException number with ⟨⟨notSecond, notFirst, notTimer⟩, notSpurious⟩
  have handler : target.handlers.ofVector (BitVec.ofNat 8 number) =
      target.address (.exception number) 0 := by
    rw [IdtHandlers.ofVector, if_neg notSecond, if_neg notFirst, if_neg notTimer,
      if_neg notSpurious, if_neg (by omega), if_neg (by omega), vector]
    exact dif_pos small
  have clears : ClearsFlag (BitVec.ofNat 8 number) := Or.inl (by omega)
  have gate := idtInit_gate target.linked idt (BitVec.ofNat 8 number)
  rw [handler, decide_eq_true clears] at gate
  have delivered : Raised target m
      (m.deliver ⟨target.address (.exception number) 0, gdtCodeSelector, true⟩)
      (.exception number) 0 m.frame := by
    refine ⟨rfl, rfl, below_deliver (by omega) _, rfl, ?_⟩
    simp only [Machine.deliver, if_true]
    rw [getLsbD_clearFlags _ _ (by decide)]
    simp [gateMask, interruptMask, interruptFlagBit]
  refine ⟨_, by rw [Target.raise, gate, Option.map_some], ?_⟩
  cases code with
  | none => exact delivered
  | some code =>
      rw [Option.toList_some, List.length_singleton] at room
      refine ⟨rfl, rfl, ?_, rfl, delivered.disabled⟩
      exact delivered.below.push code rfl rfl room

/-- Both macros leave the number of the exception above an error code. -/
theorem Raised.exception {number : Fin 20} {code : Option (BitVec 32)}
    (raised : Raised target context m (.exception number) 0 (code.toList ++ words))
    (pushesCode : code.isSome = true ↔ HasErrorCode number)
    (room : 4 * (words.length + 2) ≤ context.stack.pointer.toNat) :
    ∃ m', target.Reaches m m' ∧ m'.ss = m.ss ∧ Raised target context m' .exceptHandle 0
      (BitVec.ofNat 32 number :: code.getD 0#32 :: words) := by
  have extended : ∀ n : Fin 20, (BitVec.ofNat 8 n).signExtend 32 = BitVec.ofNat 32 n := by
    decide
  -- `cli` comes first, and the jump last; what lies between depends on the error code.
  have first : (Stub.exception number).code[0]? = some .cli := by
    rw [Stub.code, exceptionCode]
    split_ifs <;> rfl
  let disabled : Machine :=
    { m with
      eflags := clearFlags interruptMask m.eflags
      eip := target.address (.exception number) 1 }
  have cleared : target.step m = some disabled := target.step_at raised.place first
  have off : disabled.eflags.getLsbD interruptFlagBit = false := by
    simp only [disabled]
    rw [getLsbD_clearFlags _ _ (by decide), raised.disabled]
    rfl
  have atPush : Raised target context disabled (.exception number) 1 (code.toList ++ words) :=
    ⟨rfl, raised.registers, ⟨raised.below.pointer, raised.below.has, raised.below.kept,
      raised.below.ss⟩, raised.cs, off⟩
  have jumps : ∀ {last : Machine} {index : ℕ} {pushed : List (BitVec 32)},
      Raised target context last (.exception number) index pushed →
        (Stub.exception number).code[index]? = some (.jmp .exceptHandle 0) →
          ∃ m', target.Reaches last m' ∧ m'.ss = last.ss ∧
            Raised target context m' .exceptHandle 0 pushed := by
    intro last index pushed atJump holds
    refine ⟨{ last with eip := target.address .exceptHandle 0 },
      .head (target.step_at atJump.place holds) (.refl _), rfl, rfl, atJump.registers,
      ⟨atJump.below.pointer, atJump.below.has, atJump.below.kept, atJump.below.ss⟩, atJump.cs,
      atJump.disabled⟩
  have number' := extended number
  cases code with
  | some code =>
      have hasCode : HasErrorCode number := pushesCode.mp rfl
      have text : (Stub.exception number).code =
          [.cli, .pushByte (BitVec.ofNat 8 number), .jmp .exceptHandle 0] := by
        rw [Stub.code, exceptionCode, if_pos hasCode]
      rcases atPush.push (BitVec.ofNat 32 number) (by rw [text]; rfl)
        (by rw [← number']; rfl) (by simpa using room) with ⟨m₁, pushes, sameSegment, atJump⟩
      rcases jumps atJump (by rw [text]; rfl) with ⟨m', reaches, sameSegment', atHandle⟩
      exact ⟨m', .head cleared (.head pushes reaches), sameSegment'.trans sameSegment, atHandle⟩
  | none =>
      have noCode : ¬HasErrorCode number := fun has => by
        cases pushesCode.mpr has
      have text : (Stub.exception number).code = [.cli, .pushByte 0,
          .pushByte (BitVec.ofNat 8 number), .jmp .exceptHandle 0] := by
        rw [Stub.code, exceptionCode, if_neg noCode]
      rcases atPush.push 0#32 (by rw [text]; rfl) rfl
        (by rw [Option.toList_none, List.nil_append]; omega) with ⟨m₁, zero, sameSegment, atNumber⟩
      rcases atNumber.push (BitVec.ofNat 32 number) (by rw [text]; rfl) (by rw [← number']; rfl)
        (by simpa using room) with ⟨m₂, pushes, sameSegment', atJump⟩
      rcases jumps atJump (by rw [text]; rfl) with ⟨m', reaches, sameSegment'', atHandle⟩
      exact ⟨m', .head cleared (.head zero (.head pushes reaches)),
        sameSegment''.trans (sameSegment'.trans sameSegment), atHandle⟩

/-- The common part: the registers, the segments, and the call. -/
theorem Raised.handle {number : BitVec 32} {code : BitVec 32}
    (raised : Raised target context m .exceptHandle 0 (number :: code :: words))
    (room : 4 * (words.length + 12) ≤ context.stack.pointer.toNat) :
    ∃ entry, target.Reaches m entry ∧ entry.eip = target.function .handleException ∧
      entry.eflags.getLsbD interruptFlagBit = false ∧ ∃ cs ss : BitVec 32,
        cs.setWidth 16 = gdtCodeSelector ∧ ss.setWidth 16 = context.ss ∧
          context.Below (2 ^ 32) entry
            ([target.address .exceptHandle 10, cs, ss, context.registers .eax,
              context.registers .ecx, context.registers .edx, context.registers .ebx,
              context.registers .ebp, context.registers .esi, context.registers .edi, number,
              code] ++ words) := by
  rcases raised.pushes [.edi, .esi, .ebp, .ebx, .edx, .ecx, .eax] _ rfl
    (by simp only [List.length_cons, List.length_nil]; omega) with
    ⟨m₁, reaches, atStack, _⟩
  rcases atStack.push (target.segmentWord m₁ .ss) rfl rfl
    (by simp only [List.length_append, List.length_reverse, List.length_map, List.length_cons,
      List.length_nil]; omega) with ⟨m₂, pushesStack, _, atCode⟩
  rcases atCode.push (target.segmentWord m₂ .cs) rfl rfl
    (by simp only [List.length_append, List.length_reverse, List.length_map, List.length_cons,
      List.length_nil]; omega) with ⟨m₃, pushesCode, _, atCall⟩
  have calls : target.step m₃ = some { m₃ with
      stack := m₃.stack.push (target.address .exceptHandle 10)
      eip := target.function .handleException } := target.step_at atCall.place rfl
  refine ⟨_, reaches.trans (.head pushesStack (.head pushesCode (.head calls (.refl _)))), rfl,
    atCall.disabled, target.segmentWord m₂ .cs, target.segmentWord m₁ .ss, ?_, ?_, ?_⟩
  · rw [target.segmentWord_low]
    exact atCode.cs
  · rw [target.segmentWord_low]
    exact atStack.below.ss
  · exact atCall.below.push (target.address .exceptHandle 10) rfl rfl
      (by simp only [List.length_append, List.length_reverse, List.length_map, List.length_cons,
        List.length_nil]; omega)

end Steps

/-- Every exception calls `handle_exception` with the registers of the code that raised it, its own
number, and its error code or 0. -/
theorem exception_arguments (target : Target) (idt : Idt) {m : Machine} {number : Fin 20}
    {code : Option (BitVec 32)} (pushesCode : code.isSome = true ↔ HasErrorCode number)
    (room : 60 ≤ m.stack.pointer.toNat) :
    ∃ first entry, target.raise idt m number code = some first ∧ target.Reaches first entry ∧
      entry.eip = target.function .handleException ∧
        entry.eflags.getLsbD interruptFlagBit = false ∧
          entry.exceptionArguments.Tells m number code := by
  have atMost : code.toList.length ≤ 1 := by
    cases code <;> simp
  have frame : m.frame.length = 3 := rfl
  rcases @raise_eq target idt m number code (by omega) with ⟨first, raises, raised⟩
  rcases raised.exception pushesCode (by omega) with ⟨m', reaches, _, atHandle⟩
  rcases atHandle.handle (by omega) with
    ⟨entry, handles, isFunction, disabled, cs, ss, lowCs, lowSs, below⟩
  refine ⟨first, entry, raises, reaches.trans handles, isFunction, disabled, ?_⟩
  have word : ∀ before value after, [target.address .exceptHandle 10, cs, ss, m.registers .eax,
      m.registers .ecx, m.registers .edx, m.registers .ebx, m.registers .ebp, m.registers .esi,
      m.registers .edi, BitVec.ofNat 32 number, code.getD 0#32] ++ m.frame =
        before ++ value :: after → entry.stack.word before.length = value := by
    intro before value after split
    exact Machine.Below.word before (split ▸ below)
  refine ⟨?_, ?_, word [_, _, _] _ _ rfl, word [_, _, _, _] _ _ rfl, word [_, _, _, _, _] _ _ rfl,
    word [_, _, _, _, _, _] _ _ rfl, word [_, _, _, _, _, _, _] _ _ rfl,
    word [_, _, _, _, _, _, _, _] _ _ rfl, word [_, _, _, _, _, _, _, _, _] _ _ rfl,
    word [_, _, _, _, _, _, _, _, _, _] _ _ rfl, word [_, _, _, _, _, _, _, _, _, _, _] _ _ rfl⟩
  · rw [← lowCs]
    exact congrArg (BitVec.setWidth 16) (word [_] _ _ rfl)
  · rw [← lowSs]
    exact congrArg (BitVec.setWidth 16) (word [_, _] _ _ rfl)

/-- The bytes of a text. -/
def textBytes (text : String) : List UInt8 :=
  text.toList.map fun c => UInt8.ofNat c.toNat

/-- A string literal. -/
def CString.literal (text : String) : CString :=
  .ofBytes (textBytes text)

/-- `exception_description`. Number 15 has none, which is `NULL`. -/
def exceptionDescription : ℕ → Option String
  | 0 => some "Divide By Zero Error"
  | 1 => some "Debug"
  | 2 => some "NMI"
  | 3 => some "Breakpoint"
  | 4 => some "Overflow"
  | 5 => some "Bound Range Exceeded"
  | 6 => some "Invalid Opcode"
  | 7 => some "Device Not Available"
  | 8 => some "Double Fault"
  | 9 => some "Coprocessor Segment Overrun"
  | 10 => some "Invalid TSS"
  | 11 => some "Segment Not Present"
  | 12 => some "Stack-Segment Fault"
  | 13 => some "General Protection"
  | 14 => some "Page Fault"
  | 16 => some "Floating Point Error"
  | 17 => some "Alignment Check"
  | 18 => some "Machine Check"
  | 19 => some "SIMD Exception"
  | _ => none

/-- `name` of `handle_exception`. -/
def exceptionName (err : BitVec 32) : Option String :=
  if err.toNat < 20 then exceptionDescription err.toNat else some "Unknown"

/-- A string as the only argument. It is at some address, unless it is `NULL`. -/
def VaList.ofString (text : Option String) : VaList where
  word _ := if text.isSome then 1 else 0
  string _ := .literal (text.getD "")

def VaList.ofWords (words : List (BitVec 32)) : VaList where
  word i := ⟨words.getD i 0#32⟩
  string _ := nullString

/-- `handle_exception`: what it passes to `kerror`, line by line. -/
def handleException (arguments : ExceptionArguments) : List (CString × VaList) :=
  [(.literal "Error: %s", .ofString (exceptionName arguments.err)),
    (.literal "Registers: cs=%d, ss=%d, ax=%d, cx=%d",
      .ofWords [arguments.cs, arguments.ss, arguments.ax, arguments.cx]),
    (.literal "dx=%d, bx=%d, bp=%d, si=%d, di=%d",
      .ofWords [arguments.dx, arguments.bx, arguments.bp, arguments.si, arguments.di]),
    (.literal "int=%d, err=%d", .ofWords [arguments.interrupt, arguments.err])]

section Lines

variable {args : VaList} {rest : List Piece} {i : ℕ} {text : String} {word : BitVec 32}

/-- The characters of a format. -/
def textPieces (text : String) : List Piece :=
  (textBytes text).map .char

/-- `%d` and `%s`, without flags and widths. -/
def decimalPiece : Piece :=
  .conversion ⟨0, -1, false, 0x64⟩ .signed

def stringPiece : Piece :=
  .conversion ⟨0, -1, false, 0x73⟩ .string

theorem printable_textPieces :
    Printable args (textPieces text ++ rest) i ↔ Printable args rest i := by
  rw [textPieces]
  induction textBytes text with
  | nil => rfl
  | cons c bytes ih => exact ih

theorem piecesText_textPieces :
    piecesText args (textPieces text ++ rest) i = textBytes text ++ piecesText args rest i := by
  rw [textPieces]
  induction textBytes text with
  | nil => rfl
  | cons c bytes ih => exact congrArg (List.cons c) ih

theorem printable_decimalPiece (isWord : args.word i = ⟨word⟩) :
    Printable args (decimalPiece :: rest) i ↔
      DigitsFit (UInt64.ofNat word.toInt.natAbs) ∧ Printable args rest (i + 1) := by
  rcases decimal_text args i ⟨0, -1, false, 0x64⟩ true with ⟨num, isNum, value, -⟩
  have signed : decimalValue args i false true = word.toInt := by
    simp only [decimalValue, if_true, VaList.signedArg, isWord]
    rw [if_neg (by decide)]
    exact Int32.toInt_toInt64 _
  rw [signed] at value
  rw [← value, UInt64.ofNat_toNat, decimalPiece, Printable]
  have sameArg : decimalArg args i ⟨0, -1, false, 0x64⟩ .signed = some num := isNum
  rw [sameArg]
  simp [Conversion.words, longWords]

theorem pieces_error : formatPieces (.literal "Error: %s") =
    textPieces "Error: " ++ [stringPiece] := rfl

theorem pieces_registers : formatPieces (.literal "Registers: cs=%d, ss=%d, ax=%d, cx=%d") =
    textPieces "Registers: cs=" ++ decimalPiece :: (textPieces ", ss=" ++ decimalPiece ::
      (textPieces ", ax=" ++ decimalPiece :: (textPieces ", cx=" ++ [decimalPiece]))) := rfl

theorem pieces_more : formatPieces (.literal "dx=%d, bx=%d, bp=%d, si=%d, di=%d") =
    textPieces "dx=" ++ decimalPiece :: (textPieces ", bx=" ++ decimalPiece ::
      (textPieces ", bp=" ++ decimalPiece :: (textPieces ", si=" ++ decimalPiece ::
        (textPieces ", di=" ++ [decimalPiece])))) := rfl

theorem pieces_number : formatPieces (.literal "int=%d, err=%d") =
    textPieces "int=" ++ decimalPiece :: (textPieces ", err=" ++ [decimalPiece]) := rfl

/-- A name is put out as it is. -/
theorem text_error (name : Option String) : formatText (.literal "Error: %s") (.ofString name) =
    textBytes "Error: " ++ (if name.isSome then CString.literal (name.getD "")
      else nullString).chars := by
  rw [formatText, pieces_error, piecesText_textPieces]
  cases name with
  | none => rfl
  | some name =>
      simp [piecesText, stringPiece, conversionText, VaList.stringArg, VaList.ofString, fieldText,
        padCount, padEnd]

theorem printable_ofWords {words : List (BitVec 32)} :
    Printable (.ofWords words) (decimalPiece :: rest) i ↔
      DigitsFit (UInt64.ofNat (words.getD i 0#32).toInt.natAbs) ∧
        Printable (.ofWords words) rest (i + 1) :=
  printable_decimalPiece rfl

end Lines

/-- What `handle_exception` is to log. -/
def ExceptionArguments.words (arguments : ExceptionArguments) : List (BitVec 32) :=
  [arguments.cs, arguments.ss, arguments.ax, arguments.cx, arguments.dx, arguments.bx,
    arguments.bp, arguments.si, arguments.di, arguments.interrupt, arguments.err]

theorem handleException_fits (arguments : ExceptionArguments) :
    (∀ line ∈ handleException arguments, DecimalsFit line.1 line.2) ↔
      ∀ word ∈ arguments.words, DigitsFit (UInt64.ofNat word.toInt.natAbs) := by
  simp only [handleException, ExceptionArguments.words, List.forall_mem_cons, DecimalsFit,
    pieces_error, pieces_registers, pieces_more, pieces_number, printable_textPieces,
    printable_ofWords]
  simp [Printable, stringPiece, decimalArg, and_assoc]

theorem handleException_supported (arguments : ExceptionArguments) :
    ∀ line ∈ handleException arguments, Supported line.1 := by
  simp only [handleException, List.forall_mem_cons]
  exact ⟨rfl, rfl, rfl, rfl, List.forall_mem_nil _⟩

/-- The lines are handed to the console, each as a string, when the digits of all the numbers in
them fit. -/
theorem handleException_logs (arguments : ExceptionArguments) (contents : ℕ → UInt8) {buf : UInt32}
    (inside : buf.toNat + 300 < 2 ^ 32) :
    (∀ line ∈ handleException arguments, LogsString kerror contents buf line.1 line.2) ↔
      ∀ word ∈ arguments.words, DigitsFit (UInt64.ofNat word.toInt.natAbs) := by
  rw [← handleException_fits]
  apply forall₂_congr
  intro line isLine
  have closed : Supported line.1 ∧ buf.toNat + 300 < 2 ^ 32 :=
    ⟨handleException_supported arguments line isLine, inside⟩
  rw [kerror, logLine_string_iff, and_iff_left (Or.inl closed)]

/-- No two exceptions have one name, and none is unknown. -/
theorem exceptionName_inj {number : Fin 20} {err : BitVec 32}
    (same : exceptionName err = exceptionName (BitVec.ofNat 32 number)) :
    err = BitVec.ofNat 32 number := by
  have distinct : ∀ n n' : Fin 20, exceptionDescription n = exceptionDescription n' → n = n' := by
    decide
  have known : ∀ n : Fin 20, some "Unknown" ≠ exceptionDescription n := by
    decide
  have small := number.isLt
  have value : (BitVec.ofNat 32 number).toNat = number := by
    rw [BitVec.toNat_ofNat]
    omega
  rw [exceptionName, exceptionName, value, if_pos small] at same
  by_cases inTable : err.toNat < 20
  · rw [if_pos inTable] at same
    have numbers := congrArg Fin.val (distinct ⟨err.toNat, inTable⟩ number same)
    apply BitVec.eq_of_toNat_eq
    rw [value]
    exact numbers
  · rw [if_neg inTable] at same
    exact absurd same (known number)

/-- What is reported of an exception: its registers are handed over as they were, its name is
looked up by its error code, and so is right just when that is its number; and the lines are handed
to the console, each as a string, just when the digits of all the numbers in them fit. -/
theorem exception_report (target : Target) (idt : Idt) {m : Machine} {number : Fin 20}
    {code : Option (BitVec 32)} (pushesCode : code.isSome = true ↔ HasErrorCode number)
    (room : 60 ≤ m.stack.pointer.toNat) :
    ∃ first entry, target.raise idt m number code = some first ∧ target.Reaches first entry ∧
      entry.eip = target.function .handleException ∧
        entry.exceptionArguments.Tells m number code ∧
          (∃ line rest, handleException entry.exceptionArguments = line :: rest ∧
            formatText line.1 line.2 = textBytes "Error: " ++
              (if (exceptionName (code.getD 0#32)).isSome then
                CString.literal ((exceptionName (code.getD 0#32)).getD "")
              else nullString).chars) ∧
            (exceptionName (code.getD 0#32) = exceptionName (BitVec.ofNat 32 number) ↔
              code.getD 0#32 = BitVec.ofNat 32 number) ∧
              ∀ (contents : ℕ → UInt8) (buf : UInt32), buf.toNat + 300 < 2 ^ 32 →
                ((∀ line ∈ handleException entry.exceptionArguments,
                    LogsString kerror contents buf line.1 line.2) ↔
                  ∀ word ∈ entry.exceptionArguments.words,
                    DigitsFit (UInt64.ofNat word.toInt.natAbs)) := by
  rcases exception_arguments target idt pushesCode room with
    ⟨first, entry, raises, reaches, isFunction, _, tells⟩
  refine ⟨first, entry, raises, reaches, isFunction, tells, ⟨_, _, rfl, ?_⟩, ?_,
    fun contents _ inside => handleException_logs _ contents inside⟩
  · rw [tells.err]
    exact text_error _
  · exact ⟨exceptionName_inj, congrArg exceptionName⟩

/-- A write to a page that is not present is reported as an NMI. -/
theorem exception_report_pageFault :
    ∃ first entry, flatTarget.raise emptyIdt mainlineMachine 14 (some 2#32) = some first ∧
      flatTarget.Reaches first entry ∧ ∃ line rest,
        handleException entry.exceptionArguments = line :: rest ∧
          formatText line.1 line.2 = textBytes "Error: NMI" := by
  rcases @exception_report flatTarget emptyIdt mainlineMachine 14 (some 2#32) (by decide)
    (by decide) with ⟨first, entry, raises, reaches, _, _, ⟨line, rest, lines, text⟩, _⟩
  exact ⟨first, entry, raises, reaches, line, rest, lines, text.trans (by decide)⟩

end Osserver
