import LibYtdl.Regexp.Correctness
import LibYtdl.Sig.CallScan

/-!
# The compiled signature patterns

`sig-regex.h` holds the programs that `regexc` has made of its two patterns. They are the programs
that are emitted for the expressions below, byte by byte.
-/

namespace LibYtdl.Sig.SigRegex

open Machine Search Regex Regexp Emit Correctness ObjectScan CallScan

/-! ## The patterns -/

/-- A single character. -/
def char (text : UInt8) : Node CharSet := .one (.char text.toNat)

/-- A text, and an expression behind it. -/
def spell (text : Bytes) (node : Node CharSet) : Node CharSet :=
  text.foldr (fun ch node ↦ .seq (char ch) node) node

/-- A text that may be left out. -/
def mayBe (text : Bytes) : Node CharSet := .many 0 (some 1) (text.map fun ch ↦ .char ch.toNat)

/-- `[…]*`. -/
def anyOf (ranges : List (ℕ × ℕ)) : Node CharSet := .many 0 none [.range ranges]

/-- `(…)+`, within its group. -/
def plus (node : Node CharSet) : Node CharSet := .seq node (.loop node)

/-- `[a-zA-Z_\$][a-zA-Z_0-9]*`. -/
def identifier : Node CharSet :=
  .seq (.one (.range [(36, 36), (65, 90), (95, 95), (97, 122)]))
    (anyOf [(48, 57), (65, 90), (95, 95), (97, 122)])

/-- `'[^'\\]*(:?\\[\s\S][^'\\]*)*'`, with this number for its group, or the same with the other
quote; `[^'\\]` is the class that is left out of the two characters. -/
def quotedWith (mark : UInt8) (plain : List (ℕ × ℕ)) (index : ℕ) : Node CharSet :=
  spell [mark] (.seq (anyOf plain) (.seq (.reset index index)
    (.seq (.loop (.group index (.seq (mayBe [colon])
      (spell [backslash] (.seq (.one (.range [(0, 65535)])) (anyOf plain)))))) (char mark))))

/-- A string in either quotes, whose groups are this one and the next. -/
def quotedString (index : ℕ) : Node CharSet :=
  .alt (quotedWith quote [(0, 38), (40, 91), (93, 65535)] index)
    (quotedWith doubleQuote [(0, 33), (35, 91), (93, 65535)] (index + 1))

/-- The name of a property. -/
def propertyName (index : ℕ) : Node CharSet := .alt identifier (quotedString index)

/-- The four functions of the object. -/
def methods : Node CharSet :=
  .alt (.alt (.alt
    (.seq (propertyName 3) (spell (ascii ":function(a)\x7b") (.seq (mayBe (ascii "return "))
      (spell (ascii "a.reverse()") (char 125)))))
    (.seq (propertyName 5) (spell (ascii ":function(a,b)\x7breturn a.slice(b)") (char 125))))
    (.seq (propertyName 7) (spell (ascii ":function(a,b)\x7ba.splice(0,b)") (char 125))))
    (.seq (propertyName 9) (spell (ascii ":function(a,b)\x7bvar c=a[0];a[0]=a[b")
      (.seq (mayBe (ascii "%a.length")) (spell (ascii "];a[b") (.seq (mayBe (ascii "%a.length"))
        (spell (ascii "]=c") (.seq (mayBe (ascii ";return a")) (char 125))))))))

/-- A property with what separates it from the next one. -/
def property : Node CharSet :=
  .seq methods (.seq (mayBe [comma]) (.seq (mayBe [carriageReturn]) (mayBe [lineFeed])))

/-- The pattern of `action_obj_regexp`. -/
def objPattern : Node CharSet :=
  spell (ascii "var ") (.seq (.group 1 identifier) (spell (ascii "=\x7b")
    (.seq (.group 2 (plus property)) (spell (ascii "\x7d") (char semicolon)))))

/-- `''` or `""`. -/
def emptyString : Node CharSet :=
  .alt (spell [quote] (char quote)) (spell [doubleQuote] (char doubleQuote))

/-- The call of a function of the object. -/
def call : Node CharSet :=
  .seq (mayBe (ascii "a=")) (.seq identifier (.seq
    (.alt (spell (ascii ".") identifier) (spell (ascii "[") (.seq (quotedString 2) (char 93))))
    (spell (ascii "(a,") (.seq (.many 1 none [.range [(48, 57)]])
      (spell (ascii ")") (char semicolon))))))

/-- `\s*`. -/
def spaces : Node CharSet :=
  anyOf [(9, 13), (32, 32), (160, 160), (5760, 5760), (8192, 8202), (8232, 8233), (8239, 8239),
    (8287, 8287), (12288, 12288), (65279, 65279)]

/-- The pattern of `action_func_regexp`. -/
def funcPattern : Node CharSet :=
  spell (ascii "function") (.seq (.maybe (spell (ascii " ") identifier))
    (spell (ascii "(a)\x7ba=a.split(") (.seq emptyString (spell (ascii ");") (.seq spaces
      (.seq (.group 1 (plus call)) (spell (ascii "return a.join(") (.seq emptyString
        (spell (ascii ")") (char 125))))))))))

/-! ## The programs -/

/-- The bytes of a number, from the highest to the lowest. -/
def row : ℕ → ℕ → Bytes
  | 0, _ => []
  | count + 1, value => UInt8.ofNat (value / 2 ^ (8 * count)) :: row count value

/-- Rows of fifteen bytes. -/
def rows (values : List ℕ) : Bytes := values.flatMap (row 15)

/-- `action_obj_regexp`. -/
def actionObjRegexp : Bytes :=
  rows [
    0x000b02850f000008060000000407f5, 0xffffff0b0001760001610001720001,
    0x20000b011504002400240041005a00, 0x5f005f0061007a001c140000000000,
    0x0000ffffff7f010000001504003000, 0x390041005a005f005f0061007a000a,
    0x0c01013d00017b000b0209ff040000, 0x096003000009b5010000093d000000,
    0x1504002400240041005a005f005f00, 0x61007a001c1400000000000000ffff,
    0xff7f01000000150400300039004100, 0x5a005f005f0061007a000a07fc0000,
    0x00097e0000000127001c1000000000, 0x000000ffffff7f0100000015030000,
    0x00260028005b005d00ffff0a0d0303, 0x094a000000190b031c040000000000,
    0x00000100000001000000013a000a01, 0x5c001501000000ffff1c1000000000,
    0x000000ffffff7f0100000015030000, 0x00260028005b005d00ffff0a0c031a,
    0xb1ffffff0127000779000000012200, 0x1c1000000000000000ffffff7f0100,
    0x00001503000000210023005b005d00, 0xffff0a0d0404094a000000190b041c,
    0x040000000000000001000000010000, 0x00013a000a015c001501000000ffff,
    0x1c1000000000000000ffffff7f0100, 0x00001503000000210023005b005d00,
    0xffff0a0c041ab1ffffff012200013a, 0x00016600017500016e000163000174,
    0x00016900016f00016e000128000161, 0x00012900017b001c16000000000000,
    0x000100000007000000017200016500, 0x017400017500017200016e00012000,
    0x0a016100012e000172000165000176, 0x000165000172000173000165000128,
    0x00012900017d0007a1010000093d00, 0x00001504002400240041005a005f00,
    0x5f0061007a001c1400000000000000, 0xffffff7f0100000015040030003900,
    0x41005a005f005f0061007a000a07fc, 0x000000097e0000000127001c100000,
    0x0000000000ffffff7f010000001503, 0x000000260028005b005d00ffff0a0d,
    0x0505094a000000190b051c04000000, 0x000000000100000001000000013a00,
    0x0a015c001501000000ffff1c100000, 0x0000000000ffffff7f010000001503,
    0x000000260028005b005d00ffff0a0c, 0x051ab1ffffff012700077900000001,
    0x22001c1000000000000000ffffff7f, 0x010000001503000000210023005b00,
    0x5d00ffff0a0d0606094a000000190b, 0x061c04000000000000000100000001,
    0x000000013a000a015c001501000000, 0xffff1c1000000000000000ffffff7f,
    0x010000001503000000210023005b00, 0x5d00ffff0a0c061ab1ffffff012200,
    0x013a00016600017500016e00016300, 0x017400016900016f00016e00012800,
    0x016100012c00016200012900017b00, 0x017200016500017400017500017200,
    0x016e00012000016100012e00017300, 0x016c00016900016300016500012800,
    0x016200012900017d00079501000009, 0x3d0000001504002400240041005a00,
    0x5f005f0061007a001c140000000000, 0x0000ffffff7f010000001504003000,
    0x390041005a005f005f0061007a000a, 0x07fc000000097e0000000127001c10,
    0x00000000000000ffffff7f01000000, 0x1503000000260028005b005d00ffff,
    0x0a0d0707094a000000190b071c0400, 0x000000000000010000000100000001,
    0x3a000a015c001501000000ffff1c10, 0x00000000000000ffffff7f01000000,
    0x1503000000260028005b005d00ffff, 0x0a0c071ab1ffffff01270007790000,
    0x000122001c1000000000000000ffff, 0xff7f01000000150300000021002300,
    0x5b005d00ffff0a0d0808094a000000, 0x190b081c0400000000000000010000,
    0x0001000000013a000a015c00150100, 0x0000ffff1c1000000000000000ffff,
    0xff7f01000000150300000021002300, 0x5b005d00ffff0a0c081ab1ffffff01,
    0x2200013a00016600017500016e0001, 0x6300017400016900016f00016e0001,
    0x2800016100012c0001620001290001, 0x7b00016100012e0001730001700001,
    0x6c0001690001630001650001280001, 0x3000012c00016200012900017d0007,
    0x46020000093d000000150400240024, 0x0041005a005f005f0061007a001c14,
    0x00000000000000ffffff7f01000000, 0x1504003000390041005a005f005f00,
    0x61007a000a07fc000000097e000000, 0x0127001c1000000000000000ffffff,
    0x7f010000001503000000260028005b, 0x005d00ffff0a0d0909094a00000019,
    0x0b091c040000000000000001000000, 0x01000000013a000a015c0015010000,
    0x00ffff1c1000000000000000ffffff, 0x7f010000001503000000260028005b,
    0x005d00ffff0a0c091ab1ffffff0127, 0x0007790000000122001c1000000000,
    0x000000ffffff7f0100000015030000, 0x00210023005b005d00ffff0a0d0a0a,
    0x094a000000190b0a1c040000000000, 0x00000100000001000000013a000a01,
    0x5c001501000000ffff1c1000000000, 0x000000ffffff7f0100000015030000,
    0x00210023005b005d00ffff0a0c0a1a, 0xb1ffffff012200013a000166000175,
    0x00016e00016300017400016900016f, 0x00016e00012800016100012c000162,
    0x00012900017b000176000161000172, 0x00012000016300013d00016100015b,
    0x00013000015d00013b00016100015b, 0x00013000015d00013d00016100015b,
    0x000162001c1c000000000000000100, 0x000009000000012500016100012e00,
    0x016c00016500016e00016700017400, 0x0168000a015d00013b00016100015b,
    0x000162001c1c000000000000000100, 0x000009000000012500016100012e00,
    0x016c00016500016e00016700017400, 0x0168000a015d00013d000163001c1c,
    0x000000000000000100000009000000, 0x013b00017200016500017400017500,
    0x017200016e000120000161000a017d, 0x001c04000000000000000100000001,
    0x000000012c000a1c04000000000000, 0x000100000001000000010d000a1c04,
    0x000000000000000100000001000000, 0x010a000a098f0700001909ff040000,
    0x096003000009b5010000093d000000, 0x1504002400240041005a005f005f00,
    0x61007a001c1400000000000000ffff, 0xff7f01000000150400300039004100,
    0x5a005f005f0061007a000a07fc0000, 0x00097e0000000127001c1000000000,
    0x000000ffffff7f0100000015030000, 0x00260028005b005d00ffff0a0d0303,
    0x094a000000190b031c040000000000, 0x00000100000001000000013a000a01,
    0x5c001501000000ffff1c1000000000, 0x000000ffffff7f0100000015030000,
    0x00260028005b005d00ffff0a0c031a, 0xb1ffffff0127000779000000012200,
    0x1c1000000000000000ffffff7f0100, 0x00001503000000210023005b005d00,
    0xffff0a0d0404094a000000190b041c, 0x040000000000000001000000010000,
    0x00013a000a015c001501000000ffff, 0x1c1000000000000000ffffff7f0100,
    0x00001503000000210023005b005d00, 0xffff0a0c041ab1ffffff012200013a,
    0x00016600017500016e000163000174, 0x00016900016f00016e000128000161,
    0x00012900017b001c16000000000000, 0x000100000007000000017200016500,
    0x017400017500017200016e00012000, 0x0a016100012e000172000165000176,
    0x000165000172000173000165000128, 0x00012900017d0007a1010000093d00,
    0x00001504002400240041005a005f00, 0x5f0061007a001c1400000000000000,
    0xffffff7f0100000015040030003900, 0x41005a005f005f0061007a000a07fc,
    0x000000097e0000000127001c100000, 0x0000000000ffffff7f010000001503,
    0x000000260028005b005d00ffff0a0d, 0x0505094a000000190b051c04000000,
    0x000000000100000001000000013a00, 0x0a015c001501000000ffff1c100000,
    0x0000000000ffffff7f010000001503, 0x000000260028005b005d00ffff0a0c,
    0x051ab1ffffff012700077900000001, 0x22001c1000000000000000ffffff7f,
    0x010000001503000000210023005b00, 0x5d00ffff0a0d0606094a000000190b,
    0x061c04000000000000000100000001, 0x000000013a000a015c001501000000,
    0xffff1c1000000000000000ffffff7f, 0x010000001503000000210023005b00,
    0x5d00ffff0a0c061ab1ffffff012200, 0x013a00016600017500016e00016300,
    0x017400016900016f00016e00012800, 0x016100012c00016200012900017b00,
    0x017200016500017400017500017200, 0x016e00012000016100012e00017300,
    0x016c00016900016300016500012800, 0x016200012900017d00079501000009,
    0x3d0000001504002400240041005a00, 0x5f005f0061007a001c140000000000,
    0x0000ffffff7f010000001504003000, 0x390041005a005f005f0061007a000a,
    0x07fc000000097e0000000127001c10, 0x00000000000000ffffff7f01000000,
    0x1503000000260028005b005d00ffff, 0x0a0d0707094a000000190b071c0400,
    0x000000000000010000000100000001, 0x3a000a015c001501000000ffff1c10,
    0x00000000000000ffffff7f01000000, 0x1503000000260028005b005d00ffff,
    0x0a0c071ab1ffffff01270007790000, 0x000122001c1000000000000000ffff,
    0xff7f01000000150300000021002300, 0x5b005d00ffff0a0d0808094a000000,
    0x190b081c0400000000000000010000, 0x0001000000013a000a015c00150100,
    0x0000ffff1c1000000000000000ffff, 0xff7f01000000150300000021002300,
    0x5b005d00ffff0a0c081ab1ffffff01, 0x2200013a00016600017500016e0001,
    0x6300017400016900016f00016e0001, 0x2800016100012c0001620001290001,
    0x7b00016100012e0001730001700001, 0x6c0001690001630001650001280001,
    0x3000012c00016200012900017d0007, 0x46020000093d000000150400240024,
    0x0041005a005f005f0061007a001c14, 0x00000000000000ffffff7f01000000,
    0x1504003000390041005a005f005f00, 0x61007a000a07fc000000097e000000,
    0x0127001c1000000000000000ffffff, 0x7f010000001503000000260028005b,
    0x005d00ffff0a0d0909094a00000019, 0x0b091c040000000000000001000000,
    0x01000000013a000a015c0015010000, 0x00ffff1c1000000000000000ffffff,
    0x7f010000001503000000260028005b, 0x005d00ffff0a0c091ab1ffffff0127,
    0x0007790000000122001c1000000000, 0x000000ffffff7f0100000015030000,
    0x00210023005b005d00ffff0a0d0a0a, 0x094a000000190b0a1c040000000000,
    0x00000100000001000000013a000a01, 0x5c001501000000ffff1c1000000000,
    0x000000ffffff7f0100000015030000, 0x00210023005b005d00ffff0a0c0a1a,
    0xb1ffffff012200013a000166000175, 0x00016e00016300017400016900016f,
    0x00016e00012800016100012c000162, 0x00012900017b000176000161000172,
    0x00012000016300013d00016100015b, 0x00013000015d00013b00016100015b,
    0x00013000015d00013d00016100015b, 0x000162001c1c000000000000000100,
    0x000009000000012500016100012e00, 0x016c00016500016e00016700017400,
    0x0168000a015d00013b00016100015b, 0x000162001c1c000000000000000100,
    0x000009000000012500016100012e00, 0x016c00016500016e00016700017400,
    0x0168000a015d00013d000163001c1c, 0x000000000000000100000009000000,
    0x013b00017200016500017400017500, 0x017200016e000120000161000a017d,
    0x001c04000000000000000100000001, 0x000000012c000a1c04000000000000,
    0x000100000001000000010d000a1c04, 0x000000000000000100000001000000,
    0x010a000a1a6cf8ffff0c02017d0001] ++
    row 5 0x3b000c000a

/-- `action_func_regexp`. -/
def actionFuncRegexp : Bytes :=
  rows [
    0x000402be04000008060000000407f5, 0xffffff0b00016600017500016e0001,
    0x6300017400016900016f00016e0009, 0x3b0000000120001504002400240041,
    0x005a005f005f0061007a001c140000, 0x0000000000ffffff7f010000001504,
    0x003000390041005a005f005f006100, 0x7a000a012800016100012900017b00,
    0x016100013d00016100012e00017300, 0x017000016c00016900017400012800,
    0x090b00000001270001270007060000, 0x00012200012200012900013b001c2c,
    0x00000000000000ffffff7f01000000, 0x150a0009000d0020002000a000a000,
    0x8016801600200a20282029202f202f, 0x205f205f2000300030fffefffe0a0b,
    0x011c07000000000000000100000002, 0x000000016100013d000a1504002400,
    0x240041005a005f005f0061007a001c, 0x1400000000000000ffffff7f010000,
    0x001504003000390041005a005f005f, 0x0061007a000a0940000000012e0015,
    0x04002400240041005a005f005f0061, 0x007a001c1400000000000000ffffff,
    0x7f010000001504003000390041005a, 0x005f005f0061007a000a0702010000,
    0x015b00097e0000000127001c100000, 0x0000000000ffffff7f010000001503,
    0x000000260028005b005d00ffff0a0d, 0x0202094a000000190b021c04000000,
    0x000000000100000001000000013a00, 0x0a015c001501000000ffff1c100000,
    0x0000000000ffffff7f010000001503, 0x000000260028005b005d00ffff0a0c,
    0x021ab1ffffff012700077900000001, 0x22001c1000000000000000ffffff7f,
    0x010000001503000000210023005b00, 0x5d00ffff0a0d0303094a000000190b,
    0x031c04000000000000000100000001, 0x000000013a000a015c001501000000,
    0xffff1c1000000000000000ffffff7f, 0x010000001503000000210023005b00,
    0x5d00ffff0a0c031ab1ffffff012200, 0x015d00012800016100012c001c0800,
    0x000001000000ffffff7f0100000015, 0x0100300039000a012900013b0009c5,
    0x010000191c07000000000000000100, 0x000002000000016100013d000a1504,
    0x002400240041005a005f005f006100, 0x7a001c1400000000000000ffffff7f,
    0x010000001504003000390041005a00, 0x5f005f0061007a000a094000000001,
    0x2e001504002400240041005a005f00, 0x5f0061007a001c1400000000000000,
    0xffffff7f0100000015040030003900, 0x41005a005f005f0061007a000a0702,
    0x010000015b00097e0000000127001c, 0x1000000000000000ffffff7f010000,
    0x001503000000260028005b005d00ff, 0xff0a0d0202094a000000190b021c04,
    0x000000000000000100000001000000, 0x013a000a015c001501000000ffff1c,
    0x1000000000000000ffffff7f010000, 0x001503000000260028005b005d00ff,
    0xff0a0c021ab1ffffff012700077900, 0x00000122001c1000000000000000ff,
    0xffff7f010000001503000000210023, 0x005b005d00ffff0a0d0303094a0000,
    0x00190b031c04000000000000000100, 0x000001000000013a000a015c001501,
    0x000000ffff1c1000000000000000ff, 0xffff7f010000001503000000210023,
    0x005b005d00ffff0a0c031ab1ffffff, 0x012200015d00012800016100012c00,
    0x1c0800000001000000ffffff7f0100, 0x0000150100300039000a012900013b,
    0x001a36feffff0c0101720001650001, 0x7400017500017200016e0001200001,
    0x6100012e00016a00016f0001690001, 0x6e00012800090b0000000127000127,
    0x000706000000012200012200012900] ++
    row 6 0x017d000c000a

/-! ## The programs are those of the patterns -/

set_option maxRecDepth 16000 in
theorem actionObjRegexp_eq : actionObjRegexp = emitProgram 11 objPattern :=
  eq_of_beq (show (actionObjRegexp == emitProgram 11 objPattern) = true by decide)

set_option maxRecDepth 16000 in
theorem actionFuncRegexp_eq : actionFuncRegexp = emitProgram 4 funcPattern :=
  eq_of_beq (show (actionFuncRegexp == emitProgram 4 funcPattern) = true by decide)

set_option maxRecDepth 16000 in
theorem compiles_obj : Compiles 11 objPattern where
  encodable := by decide
  groups := by decide
  pos := by decide
  count := by decide
  depth := by decide

set_option maxRecDepth 16000 in
theorem compiles_func : Compiles 4 funcPattern where
  encodable := by decide
  groups := by decide
  pos := by decide
  count := by decide
  depth := by decide

end LibYtdl.Sig.SigRegex
