import Hengine.Http.Bytes

/-!
# Huffman Coding of Header Strings

The model of `ngx_http_huff_encode.c` and `ngx_http_huff_decode.c`. The encoder collects the
codes of the characters in a 64-bit word, from its high end down, and stores the word when
it is full. The decoder is an automaton with 256 states that takes four bits at a time; it
keeps its state when a string arrives in pieces.
-/

namespace Hengine

/-! ### Encoding -/

/-- `ngx_http_huff_encode_table`: the code of each character and the number of its bits. -/
def huffEncodeTable : List (ℕ × ℕ) :=
  [(0x1ff8, 13), (0x7fffd8, 23), (0xfffffe2, 28), (0xfffffe3, 28), (0xfffffe4, 28), (0xfffffe5, 28),
   (0xfffffe6, 28), (0xfffffe7, 28), (0xfffffe8, 28), (0xffffea, 24), (0x3ffffffc, 30),
   (0xfffffe9, 28), (0xfffffea, 28), (0x3ffffffd, 30), (0xfffffeb, 28), (0xfffffec, 28),
   (0xfffffed, 28), (0xfffffee, 28), (0xfffffef, 28), (0xffffff0, 28), (0xffffff1, 28),
   (0xffffff2, 28), (0x3ffffffe, 30), (0xffffff3, 28), (0xffffff4, 28), (0xffffff5, 28),
   (0xffffff6, 28), (0xffffff7, 28), (0xffffff8, 28), (0xffffff9, 28), (0xffffffa, 28),
   (0xffffffb, 28), (0x14, 6), (0x3f8, 10), (0x3f9, 10), (0xffa, 12), (0x1ff9, 13), (0x15, 6),
   (0xf8, 8), (0x7fa, 11), (0x3fa, 10), (0x3fb, 10), (0xf9, 8), (0x7fb, 11), (0xfa, 8), (0x16, 6),
   (0x17, 6), (0x18, 6), (0x0, 5), (0x1, 5), (0x2, 5), (0x19, 6), (0x1a, 6), (0x1b, 6), (0x1c, 6),
   (0x1d, 6), (0x1e, 6), (0x1f, 6), (0x5c, 7), (0xfb, 8), (0x7ffc, 15), (0x20, 6), (0xffb, 12),
   (0x3fc, 10), (0x1ffa, 13), (0x21, 6), (0x5d, 7), (0x5e, 7), (0x5f, 7), (0x60, 7), (0x61, 7),
   (0x62, 7), (0x63, 7), (0x64, 7), (0x65, 7), (0x66, 7), (0x67, 7), (0x68, 7), (0x69, 7),
   (0x6a, 7), (0x6b, 7), (0x6c, 7), (0x6d, 7), (0x6e, 7), (0x6f, 7), (0x70, 7), (0x71, 7),
   (0x72, 7), (0xfc, 8), (0x73, 7), (0xfd, 8), (0x1ffb, 13), (0x7fff0, 19), (0x1ffc, 13),
   (0x3ffc, 14), (0x22, 6), (0x7ffd, 15), (0x3, 5), (0x23, 6), (0x4, 5), (0x24, 6), (0x5, 5),
   (0x25, 6), (0x26, 6), (0x27, 6), (0x6, 5), (0x74, 7), (0x75, 7), (0x28, 6), (0x29, 6), (0x2a, 6),
   (0x7, 5), (0x2b, 6), (0x76, 7), (0x2c, 6), (0x8, 5), (0x9, 5), (0x2d, 6), (0x77, 7), (0x78, 7),
   (0x79, 7), (0x7a, 7), (0x7b, 7), (0x7ffe, 15), (0x7fc, 11), (0x3ffd, 14), (0x1ffd, 13),
   (0xffffffc, 28), (0xfffe6, 20), (0x3fffd2, 22), (0xfffe7, 20), (0xfffe8, 20), (0x3fffd3, 22),
   (0x3fffd4, 22), (0x3fffd5, 22), (0x7fffd9, 23), (0x3fffd6, 22), (0x7fffda, 23), (0x7fffdb, 23),
   (0x7fffdc, 23), (0x7fffdd, 23), (0x7fffde, 23), (0xffffeb, 24), (0x7fffdf, 23), (0xffffec, 24),
   (0xffffed, 24), (0x3fffd7, 22), (0x7fffe0, 23), (0xffffee, 24), (0x7fffe1, 23), (0x7fffe2, 23),
   (0x7fffe3, 23), (0x7fffe4, 23), (0x1fffdc, 21), (0x3fffd8, 22), (0x7fffe5, 23), (0x3fffd9, 22),
   (0x7fffe6, 23), (0x7fffe7, 23), (0xffffef, 24), (0x3fffda, 22), (0x1fffdd, 21), (0xfffe9, 20),
   (0x3fffdb, 22), (0x3fffdc, 22), (0x7fffe8, 23), (0x7fffe9, 23), (0x1fffde, 21), (0x7fffea, 23),
   (0x3fffdd, 22), (0x3fffde, 22), (0xfffff0, 24), (0x1fffdf, 21), (0x3fffdf, 22), (0x7fffeb, 23),
   (0x7fffec, 23), (0x1fffe0, 21), (0x1fffe1, 21), (0x3fffe0, 22), (0x1fffe2, 21), (0x7fffed, 23),
   (0x3fffe1, 22), (0x7fffee, 23), (0x7fffef, 23), (0xfffea, 20), (0x3fffe2, 22), (0x3fffe3, 22),
   (0x3fffe4, 22), (0x7ffff0, 23), (0x3fffe5, 22), (0x3fffe6, 22), (0x7ffff1, 23), (0x3ffffe0, 26),
   (0x3ffffe1, 26), (0xfffeb, 20), (0x7fff1, 19), (0x3fffe7, 22), (0x7ffff2, 23), (0x3fffe8, 22),
   (0x1ffffec, 25), (0x3ffffe2, 26), (0x3ffffe3, 26), (0x3ffffe4, 26), (0x7ffffde, 27),
   (0x7ffffdf, 27), (0x3ffffe5, 26), (0xfffff1, 24), (0x1ffffed, 25), (0x7fff2, 19), (0x1fffe3, 21),
   (0x3ffffe6, 26), (0x7ffffe0, 27), (0x7ffffe1, 27), (0x3ffffe7, 26), (0x7ffffe2, 27),
   (0xfffff2, 24), (0x1fffe4, 21), (0x1fffe5, 21), (0x3ffffe8, 26), (0x3ffffe9, 26),
   (0xffffffd, 28), (0x7ffffe3, 27), (0x7ffffe4, 27), (0x7ffffe5, 27), (0xfffec, 20),
   (0xfffff3, 24), (0xfffed, 20), (0x1fffe6, 21), (0x3fffe9, 22), (0x1fffe7, 21), (0x1fffe8, 21),
   (0x7ffff3, 23), (0x3fffea, 22), (0x3fffeb, 22), (0x1ffffee, 25), (0x1ffffef, 25), (0xfffff4, 24),
   (0xfffff5, 24), (0x3ffffea, 26), (0x7ffff4, 23), (0x3ffffeb, 26), (0x7ffffe6, 27),
   (0x3ffffec, 26), (0x3ffffed, 26), (0x7ffffe7, 27), (0x7ffffe8, 27), (0x7ffffe9, 27),
   (0x7ffffea, 27), (0x7ffffeb, 27), (0xffffffe, 28), (0x7ffffec, 27), (0x7ffffed, 27),
   (0x7ffffee, 27), (0x7ffffef, 27), (0x7fffff0, 27), (0x3ffffee, 26)]

/-- `ngx_http_huff_encode_table_lc`: the same table, but for the capital letters, which have the
codes of the small ones. -/
def huffEncodeTableLc : List (ℕ × ℕ) :=
  huffEncodeTable.take 65 ++ (huffEncodeTable.drop 97).take 26 ++ huffEncodeTable.drop 91

/-- What the loop of `ngx_http_huff_encode` keeps: the bytes stored, the word, and how many
of its bits are taken. -/
structure HuffWord where
  dst : List UInt8
  buf : ℕ
  pending : ℕ
deriving Repr, DecidableEq

/-- `k` bytes of a word, the highest one first: `ngx_http_huff_encode_buf` for eight of them. -/
@[grind =]
def bytesBE : ℕ → ℕ → List UInt8
  | 0, _ => []
  | k + 1, x => UInt8.ofNat (x >>> (8 * k)) :: bytesBE k x

/-- One character. `len` is the length of the source; `none` when the result would not be
shorter. -/
def huffPut (table : List (ℕ × ℕ)) (len : ℕ) (w : HuffWord) (c : UInt8) : Option HuffWord :=
  let next := table.getD c.toNat (0, 0)
  let code := next.1
  let pending := w.pending + next.2
  if pending < 64 then
    some { w with buf := w.buf ||| (code <<< (64 - pending)) % 2 ^ 64, pending := pending }
  else if w.dst.length + 8 ≥ len then none
  else
    let pending := pending - 64
    some
      { dst := w.dst ++ bytesBE 8 (w.buf ||| code >>> pending)
        buf := if pending ≠ 0 then (code <<< (64 - pending)) % 2 ^ 64 else 0
        pending := pending }

/-- The loop over the source. -/
@[grind =]
def huffPutAll (table : List (ℕ × ℕ)) (len : ℕ) : HuffWord → List UInt8 → Option HuffWord
  | w, [] => some w
  | w, c :: src => (huffPut table len w c).bind fun w => huffPutAll table len w src

/-- What is left in the word, filled up with ones to whole bytes. -/
def huffFlush (len : ℕ) (w : HuffWord) : List UInt8 :=
  if w.pending = 0 then w.dst
  else
    let buf := w.buf ||| (2 ^ 64 - 1) >>> w.pending
    let pending := (w.pending + 7) / 8 * 8
    if w.dst.length + pending / 8 ≥ len then []
    else w.dst ++ bytesBE (pending / 8) (buf >>> (64 - pending))

/-- `ngx_http_huff_encode`: the bytes written, none for the return value 0. -/
def huffEncode (src : List UInt8) (lower : Bool) : List UInt8 :=
  let table := if lower then huffEncodeTableLc else huffEncodeTable
  match huffPutAll table src.length ⟨[], 0, 0⟩ src with
  | none => []
  | some w => huffFlush src.length w

/-! ### Decoding -/

/-- `ngx_http_huff_decode_codes`, one number for a state: an entry is five digits, two of `next`,
two of `sym` and one of the flags `emit` and `ending`. -/
def huffDecodeCodes : List ℕ :=
  [0x040000500007000080000b0000c0001000013000190001c00020000230002a000310003900040001,
   0x00303003130032300613006330065300693006f300733007430d0000e00011000120001400015000,
   0x0130216303013121631301322163230161216613016321663301652166530169216693016f2166f3,
   0x02302093021730228303023120931217312283130232209322173222832302612096121761228613,
   0x03302063020a3020f302183021f302293023830303312063120a3120f312183121f3122931238313,
   0x03322063220a3220f322183221f322293223832303612066120a6120f612186121f6122961238613,
   0x026320963217632286330265209652176522865302692096921769228693026f2096f2176f2286f3,
   0x03632066320a6320f632186321f632296323863303652066520a6520f652186521f6522965238653,
   0x03692066920a6920f692186921f6922969238693036f2066f20a6f20f6f2186f21f6f2296f2386f3,
   0x017321673301742167430020300253002d3002e3002f300333003430035300363003730038300393,
   0x027320973217732287330274209742177422874301202162030125216253012d2162d3012e2162e3,
   0x03732067320a7320f732187321f732297323873303742067420a7420f742187421f7422974238743,
   0x0220209202172022820302252092521725228253022d2092d2172d2282d3022e2092e2172e2282e3,
   0x03202062020a2020f202182021f202292023820303252062520a2520f252182521f2522925238253,
   0x032d2062d20a2d20f2d2182d21f2d2292d2382d3032e2062e20a2e20f2e2182e21f2e2292e2382e3,
   0x012f2162f30133216333013421634301352163530136216363013721637301382163830139216393,
   0x022f2092f2172f2282f3023320933217332283330234209342173422834302352093521735228353,
   0x032f2062f20a2f20f2f2182f21f2f2292f2382f303332063320a3320f332183321f3322933238333,
   0x03342063420a3420f342183421f342293423834303352063520a3520f352183521f3522935238353,
   0x02362093621736228363023720937217372283730238209382173822838302392093921739228393,
   0x03362063620a3620f362183621f362293623836303372063720a3720f372183721f3722937238373,
   0x03382063820a3820f382183821f382293823838303392063920a3920f392183921f3922939238393,
   0x1a0001b0001d0001e000210002200024000250002b0002e00032000350003a0003d0004100044001,
   0x003d300413005f30062300643006630067300683006c3006d3006e30070300723007532600027000,
   0x013d2163d30141216413015f2165f301622166230164216643016621666301672166730168216683,
   0x023d2093d2173d2283d302412094121741228413025f2095f2175f2285f302622096221762228623,
   0x033d2063d20a3d20f3d2183d21f3d2293d2383d303412064120a4120f412184121f4122941238413,
   0x035f2065f20a5f20f5f2185f21f5f2295f2385f303622066220a6220f622186221f6222962238623,
   0x02642096421764228643026620966217662286630267209672176722867302682096821768228683,
   0x03642066420a6420f642186421f642296423864303662066620a6620f662186621f6622966238663,
   0x03672066720a6720f672186721f672296723867303682066820a6820f682186821f6822968238683,
   0x016c2166c3016d2166d3016e2166e3017021670301722167230175216753003a3004230043300443,
   0x026c2096c2176c2286c3026d2096d2176d2286d3026e2096e2176e2286e302702097021770228703,
   0x036c2066c20a6c20f6c2186c21f6c2296c2386c3036d2066d20a6d20f6d2186d21f6d2296d2386d3,
   0x036e2066e20a6e20f6e2186e21f6e2296e2386e303702067020a7020f702187021f7022970238703,
   0x0272209722177222872302752097521775228753013a2163a3014221642301432164330144216443,
   0x03722067220a7220f722187221f722297223872303752067520a7520f752187521f7522975238753,
   0x023a2093a2173a2283a3024220942217422284230243209432174322843302442094421744228443,
   0x033a2063a20a3a20f3a2183a21f3a2293a2383a303422064220a4220f422184221f4222942238423,
   0x03432064320a4320f432184321f432294323843303442064420a4420f442184421f4422944238443,
   0x2c0002d0002f00030000330003400036000370003b0003c0003e0003f00042000430004500048001,
   0x0045300463004730048300493004a3004b3004c3004d3004e3004f30050300513005230053300543,
   0x01452164530146216463014721647301482164830149216493014a2164a3014b2164b3014c2164c3,
   0x02452094521745228453024620946217462284630247209472174722847302482094821748228483,
   0x03452064520a4520f452184521f452294523845303462064620a4620f462184621f4622946238463,
   0x03472064720a4720f472184721f472294723847303482064820a4820f482184821f4822948238483,
   0x02492094921749228493024a2094a2174a2284a3024b2094b2174b2284b3024c2094c2174c2284c3,
   0x03492064920a4920f492184921f4922949238493034a2064a20a4a20f4a2184a21f4a2294a2384a3,
   0x034b2064b20a4b20f4b2184b21f4b2294b2384b3034c2064c20a4c20f4c2184c21f4c2294c2384c3,
   0x014d2164d3014e2164e3014f2164f301502165030151216513015221652301532165330154216543,
   0x024d2094d2174d2284d3024e2094e2174e2284e3024f2094f2174f2284f302502095021750228503,
   0x034d2064d20a4d20f4d2184d21f4d2294d2384d3034e2064e20a4e20f4e2184e21f4e2294e2384e3,
   0x034f2064f20a4f20f4f2184f21f4f2294f2384f303502065020a5020f502185021f5022950238503,
   0x02512095121751228513025220952217522285230253209532175322853302542095421754228543,
   0x03512065120a5120f512185121f512295123851303522065220a5220f522185221f5222952238523,
   0x03532065320a5320f532185321f532295323853303542065420a5420f542185421f5422954238543,
   0x00553005630057300593006a3006b30071300763007730078300793007a34600047000490004a001,
   0x0155216553015621656301572165730159216593016a2166a3016b2166b301712167130176216763,
   0x02552095521755228553025620956217562285630257209572175722857302592095921759228593,
   0x03552065520a5520f552185521f552295523855303562065620a5620f562185621f5622956238563,
   0x03572065720a5720f572185721f572295723857303592065920a5920f592185921f5922959238593,
   0x026a2096a2176a2286a3026b2096b2176b2286b30271209712177122871302762097621776228763,
   0x036a2066a20a6a20f6a2186a21f6a2296a2386a3036b2066b20a6b20f6b2186b21f6b2296b2386b3,
   0x03712067120a7120f712187121f712297123871303762067620a7620f762187621f7622976238763,
   0x017721677301782167830179216793017a2167a300263002a3002c3003b300583005a34b0004e001,
   0x027720977217772287730278209782177822878302792097921779228793027a2097a2177a2287a3,
   0x03772067720a7720f772187721f772297723877303782067820a7820f782187821f7822978238783,
   0x03792067920a7920f792187921f7922979238793037a2067a20a7a20f7a2187a21f7a2297a2387a3,
   0x0126216263012a2162a3012c2162c3013b2163b30158216583015a2165a34c0004d0004f00051001,
   0x02262092621726228263022a2092a2172a2282a3022c2092c2172c2282c3023b2093b2173b2283b3,
   0x03262062620a2620f262182621f2622926238263032a2062a20a2a20f2a2182a21f2a2292a2382a3,
   0x032c2062c20a2c20f2c2182c21f2c2292c2382c3033b2063b20a3b20f3b2183b21f3b2293b2383b3,
   0x02582095821758228583025a2095a2175a2285a300213002230028300293003f3500005200054001,
   0x03582065820a5820f582185821f5822958238583035a2065a20a5a20f5a2185a21f5a2295a2385a3,
   0x0121216213012221622301282162830129216293013f2163f300273002b3007c3530005500058001,
   0x02212092121721228213022220922217222282230228209282172822828302292092921729228293,
   0x03212062120a2120f212182121f212292123821303222062220a2220f222182221f2222922238223,
   0x03282062820a2820f282182821f282292823828303292062920a2920f292182921f2922929238293,
   0x023f2093f2173f2283f30127216273012b2162b3017c2167c300233003e35600057000590005a001,
   0x033f2063f20a3f20f3f2183f21f3f2293f2383f302272092721727228273022b2092b2172b2282b3,
   0x03272062720a2720f272182721f2722927238273032b2062b20a2b20f2b2182b21f2b2292b2382b3,
   0x027c2097c2177c2287c30123216233013e2163e3000030024300403005b3005d3007e35b0005c001,
   0x037c2067c20a7c20f7c2187c21f7c2297c2387c302232092321723228233023e2093e2173e2283e3,
   0x03232062320a2320f232182321f2322923238233033e2063e20a3e20f3e2183e21f3e2293e2383e3,
   0x010021600301242162430140216403015b2165b3015d2165d3017e2167e3005e3007d35d0005e001,
   0x020020900217002280030224209242172422824302402094021740228403025b2095b2175b2285b3,
   0x03002060020a0020f002180021f002290023800303242062420a2420f242182421f2422924238243,
   0x03402064020a4020f402184021f4022940238403035b2065b20a5b20f5b2185b21f5b2295b2385b3,
   0x025d2095d2175d2285d3027e2097e2177e2287e3015e2165e3017d2167d3003c300603007b35f001,
   0x035d2065d20a5d20f5d2185d21f5d2295d2385d3037e2067e20a7e20f7e2187e21f7e2297e2387e3,
   0x025e2095e2175e2285e3027d2097d2177d2287d3013c2163c30160216603017b2167b3600006e001,
   0x035e2065e20a5e20f5e2185e21f5e2295e2385e3037d2067d20a7d20f7d2187d21f7d2297d2387d3,
   0x023c2093c2173c2283c302602096021760228603027b2097b2177b2287b361000650006f00085001,
   0x033c2063c20a3c20f3c2183c21f3c2293c2383c303602066020a6020f602186021f6022960238603,
   0x037b2067b20a7b20f7b2187b21f7b2297b2387b36200063000660006900070000770008600099001,
   0x005c300c3300d036400067000680006a0006b0007100074000780007e000870008e0009a000a9001,
   0x015c2165c301c3216c3301d0216d0300803008230083300a2300b8300c2300e0300e236c0006d000,
   0x025c2095c2175c2285c302c3209c3217c3228c3302d0209d0217d0228d0301802168030182216823,
   0x035c2065c20a5c20f5c2185c21f5c2295c2385c303c3206c320ac320fc3218c321fc3229c3238c33,
   0x03d0206d020ad020fd0218d021fd0229d0238d030280209802178022880302822098221782228823,
   0x03802068020a8020f802188021f802298023880303822068220a8220f822188221f8222982238823,
   0x018321683301a2216a2301b8216b8301c2216c2301e0216e0301e2216e230099300a1300a7300ac3,
   0x0283209832178322883302a2209a2217a2228a2302b8209b8217b8228b8302c2209c2217c2228c23,
   0x03832068320a8320f832188321f832298323883303a2206a220aa220fa2218a221fa2229a2238a23,
   0x03b8206b820ab820fb8218b821fb8229b8238b8303c2206c220ac220fc2218c221fc2229c2238c23,
   0x02e0209e0217e0228e0302e2209e2217e2228e23019921699301a1216a1301a7216a7301ac216ac3,
   0x03e0206e020ae020fe0218e021fe0229e0238e0303e2206e220ae220fe2218e221fe2229e2238e23,
   0x0299209992179922899302a1209a1217a1228a1302a7209a7217a7228a7302ac209ac217ac228ac3,
   0x03992069920a9920f992189921f992299923899303a1206a120aa120fa1218a121fa1229a1238a13,
   0x03a7206a720aa720fa7218a721fa7229a7238a7303ac206ac20aac20fac218ac21fac229ac238ac3,
   0x72000730007500076000790007b0007f00082000880008b0008f000920009b000a2000aa000b4001,
   0x00b0300b1300b3300d1300d8300d9300e3300e5300e637a0007c0007d00080000810008300084000,
   0x01b0216b0301b1216b1301b3216b3301d1216d1301d8216d8301d9216d9301e3216e3301e5216e53,
   0x02b0209b0217b0228b0302b1209b1217b1228b1302b3209b3217b3228b3302d1209d1217d1228d13,
   0x03b0206b020ab020fb0218b021fb0229b0238b0303b1206b120ab120fb1218b121fb1229b1238b13,
   0x03b3206b320ab320fb3218b321fb3229b3238b3303d1206d120ad120fd1218d121fd1229d1238d13,
   0x02d8209d8217d8228d8302d9209d9217d9228d9302e3209e3217e3228e3302e5209e5217e5228e53,
   0x03d8206d820ad820fd8218d821fd8229d8238d8303d9206d920ad920fd9218d921fd9229d9238d93,
   0x03e3206e320ae320fe3218e321fe3229e3238e3303e5206e520ae520fe5218e521fe5229e5238e53,
   0x01e6216e63008130084300853008630088300923009a3009c300a0300a3300a4300a9300aa300ad3,
   0x02e6209e6217e6228e63018121681301842168430185216853018621686301882168830192216923,
   0x03e6206e620ae620fe6218e621fe6229e6238e630281209812178122881302842098421784228843,
   0x03812068120a8120f812188121f812298123881303842068420a8420f842188421f8422984238843,
   0x02852098521785228853028620986217862288630288209882178822888302922099221792228923,
   0x03852068520a8520f852188521f852298523885303862068620a8620f862188621f8622986238863,
   0x03882068820a8820f882188821f882298823888303922069220a9220f922189221f9222992238923,
   0x019a2169a3019c2169c301a0216a0301a3216a3301a4216a4301a9216a9301aa216aa301ad216ad3,
   0x029a2099a2179a2289a3029c2099c2179c2289c302a0209a0217a0228a0302a3209a3217a3228a33,
   0x039a2069a20a9a20f9a2189a21f9a2299a2389a3039c2069c20a9c20f9c2189c21f9c2299c2389c3,
   0x03a0206a020aa020fa0218a021fa0229a0238a0303a3206a320aa320fa3218a321fa3229a3238a33,
   0x02a4209a4217a4228a4302a9209a9217a9228a9302aa209aa217aa228aa302ad209ad217ad228ad3,
   0x03a4206a420aa420fa4218a421fa4229a4238a4303a9206a920aa920fa9218a921fa9229a9238a93,
   0x03aa206aa20aaa20faa218aa21faa229aa238aa303ad206ad20aad20fad218ad21fad229ad238ad3,
   0x890008a0008c0008d000900009100093000960009c0009f000a3000a6000ab000ae000b5000be001,
   0x00b2300b5300b9300ba300bb300bd300be300c4300c6300e4300e8300e9394000950009700098000,
   0x01b2216b2301b5216b5301b9216b9301ba216ba301bb216bb301bd216bd301be216be301c4216c43,
   0x02b2209b2217b2228b2302b5209b5217b5228b5302b9209b9217b9228b9302ba209ba217ba228ba3,
   0x03b2206b220ab220fb2218b221fb2229b2238b2303b5206b520ab520fb5218b521fb5229b5238b53,
   0x03b9206b920ab920fb9218b921fb9229b9238b9303ba206ba20aba20fba218ba21fba229ba238ba3,
   0x02bb209bb217bb228bb302bd209bd217bd228bd302be209be217be228be302c4209c4217c4228c43,
   0x03bb206bb20abb20fbb218bb21fbb229bb238bb303bd206bd20abd20fbd218bd21fbd229bd238bd3,
   0x03be206be20abe20fbe218be21fbe229be238be303c4206c420ac420fc4218c421fc4229c4238c43,
   0x01c6216c6301e4216e4301e8216e8301e9216e93000130087300893008a3008b3008c3008d3008f3,
   0x02c6209c6217c6228c6302e4209e4217e4228e4302e8209e8217e8228e8302e9209e9217e9228e93,
   0x03c6206c620ac620fc6218c621fc6229c6238c6303e4206e420ae420fe4218e421fe4229e4238e43,
   0x03e8206e820ae820fe8218e821fe8229e8238e8303e9206e920ae920fe9218e921fe9229e9238e93,
   0x010121601301872168730189216893018a2168a3018b2168b3018c2168c3018d2168d3018f2168f3,
   0x020120901217012280130287209872178722887302892098921789228893028a2098a2178a2288a3,
   0x03012060120a0120f012180121f012290123801303872068720a8720f872188721f8722987238873,
   0x03892068920a8920f892188921f8922989238893038a2068a20a8a20f8a2188a21f8a2298a2388a3,
   0x028b2098b2178b2288b3028c2098c2178c2288c3028d2098d2178d2288d3028f2098f2178f2288f3,
   0x038b2068b20a8b20f8b2188b21f8b2298b2388b3038c2068c20a8c20f8c2188c21f8c2298c2388c3,
   0x038d2068d20a8d20f8d2188d21f8d2298d2388d3038f2068f20a8f20f8f2188f21f8f2298f2388f3,
   0x9d0009e000a0000a1000a4000a5000a7000a8000ac000ad000af000b1000b6000b9000bf000cf001,
   0x0093300953009630097300983009b3009d3009e300a5300a6300a8300ae300af300b4300b6300b73,
   0x01932169330195216953019621696301972169730198216983019b2169b3019d2169d3019e2169e3,
   0x02932099321793228933029520995217952289530296209962179622896302972099721797228973,
   0x03932069320a9320f932189321f932299323893303952069520a9520f952189521f9522995238953,
   0x03962069620a9620f962189621f962299623896303972069720a9720f972189721f9722997238973,
   0x02982099821798228983029b2099b2179b2289b3029d2099d2179d2289d3029e2099e2179e2289e3,
   0x03982069820a9820f982189821f9822998238983039b2069b20a9b20f9b2189b21f9b2299b2389b3,
   0x039d2069d20a9d20f9d2189d21f9d2299d2389d3039e2069e20a9e20f9e2189e21f9e2299e2389e3,
   0x01a5216a5301a6216a6301a8216a8301ae216ae301af216af301b4216b4301b6216b6301b7216b73,
   0x02a5209a5217a5228a5302a6209a6217a6228a6302a8209a8217a8228a8302ae209ae217ae228ae3,
   0x03a5206a520aa520fa5218a521fa5229a5238a5303a6206a620aa620fa6218a621fa6229a6238a63,
   0x03a8206a820aa820fa8218a821fa8229a8238a8303ae206ae20aae20fae218ae21fae229ae238ae3,
   0x02af209af217af228af302b4209b4217b4228b4302b6209b6217b6228b6302b7209b7217b7228b73,
   0x03af206af20aaf20faf218af21faf229af238af303b4206b420ab420fb4218b421fb4229b4238b43,
   0x03b6206b620ab620fb6218b621fb6229b6238b6303b7206b720ab720fb7218b721fb7229b7238b73,
   0x00bc300bf300c5300e7300ef3b0000b2000b3000b7000b8000ba000bb000c0000c7000d0000df001,
   0x01bc216bc301bf216bf301c5216c5301e7216e7301ef216ef300093008e3009030091300943009f3,
   0x02bc209bc217bc228bc302bf209bf217bf228bf302c5209c5217c5228c5302e7209e7217e7228e73,
   0x03bc206bc20abc20fbc218bc21fbc229bc238bc303bf206bf20abf20fbf218bf21fbf229bf238bf3,
   0x03c5206c520ac520fc5218c521fc5229c5238c5303e7206e720ae720fe7218e721fe7229e7238e73,
   0x02ef209ef217ef228ef30109216093018e2168e3019021690301912169130194216943019f2169f3,
   0x03ef206ef20aef20fef218ef21fef229ef238ef302092090921709228093028e2098e2178e2288e3,
   0x03092060920a0920f092180921f0922909238093038e2068e20a8e20f8e2188e21f8e2298e2388e3,
   0x029020990217902289030291209912179122891302942099421794228943029f2099f2179f2289f3,
   0x03902069020a9020f902189021f902299023890303912069120a9120f912189121f9122991238913,
   0x03942069420a9420f942189421f9422994238943039f2069f20a9f20f9f2189f21f9f2299f2389f3,
   0x00ab300ce300d7300e1300ec300ed3bc000bd000c1000c4000c8000cb000d1000d8000e0000ee001,
   0x01ab216ab301ce216ce301d7216d7301e1216e1301ec216ec301ed216ed300c7300cf300ea300eb3,
   0x02ab209ab217ab228ab302ce209ce217ce228ce302d7209d7217d7228d7302e1209e1217e1228e13,
   0x03ab206ab20aab20fab218ab21fab229ab238ab303ce206ce20ace20fce218ce21fce229ce238ce3,
   0x03d7206d720ad720fd7218d721fd7229d7238d7303e1206e120ae120fe1218e121fe1229e1238e13,
   0x02ec209ec217ec228ec302ed209ed217ed228ed301c7216c7301cf216cf301ea216ea301eb216eb3,
   0x03ec206ec20aec20fec218ec21fec229ec238ec303ed206ed20aed20fed218ed21fed229ed238ed3,
   0x02c7209c7217c7228c7302cf209cf217cf228cf302ea209ea217ea228ea302eb209eb217eb228eb3,
   0x03c7206c720ac720fc7218c721fc7229c7238c7303cf206cf20acf20fcf218cf21fcf229cf238cf3,
   0x03ea206ea20aea20fea218ea21fea229ea238ea303eb206eb20aeb20feb218eb21feb229eb238eb3,
   0xc2000c3000c5000c6000c9000ca000cc000cd000d2000d5000d9000dc000e1000e7000ef000f6001,
   0x00c0300c1300c8300c9300ca300cd300d2300d5300da300db300ee300f0300f2300f3300ff3ce000,
   0x01c0216c0301c1216c1301c8216c8301c9216c9301ca216ca301cd216cd301d2216d2301d5216d53,
   0x02c0209c0217c0228c0302c1209c1217c1228c1302c8209c8217c8228c8302c9209c9217c9228c93,
   0x03c0206c020ac020fc0218c021fc0229c0238c0303c1206c120ac120fc1218c121fc1229c1238c13,
   0x03c8206c820ac820fc8218c821fc8229c8238c8303c9206c920ac920fc9218c921fc9229c9238c93,
   0x02ca209ca217ca228ca302cd209cd217cd228cd302d2209d2217d2228d2302d5209d5217d5228d53,
   0x03ca206ca20aca20fca218ca21fca229ca238ca303cd206cd20acd20fcd218cd21fcd229cd238cd3,
   0x03d2206d220ad220fd2218d221fd2229d2238d2303d5206d520ad520fd5218d521fd5229d5238d53,
   0x01da216da301db216db301ee216ee301f0216f0301f2216f2301f3216f3301ff216ff300cb300cc3,
   0x02da209da217da228da302db209db217db228db302ee209ee217ee228ee302f0209f0217f0228f03,
   0x03da206da20ada20fda218da21fda229da238da303db206db20adb20fdb218db21fdb229db238db3,
   0x03ee206ee20aee20fee218ee21fee229ee238ee303f0206f020af020ff0218f021ff0229f0238f03,
   0x02f2209f2217f2228f2302f3209f3217f3228f3302ff209ff217ff228ff301cb216cb301cc216cc3,
   0x03f2206f220af220ff2218f221ff2229f2238f2303f3206f320af320ff3218f321ff3229f3238f33,
   0x03ff206ff20aff20fff218ff21fff229ff238ff302cb209cb217cb228cb302cc209cc217cc228cc3,
   0x03cb206cb20acb20fcb218cb21fcb229cb238cb303cc206cc20acc20fcc218cc21fcc229cc238cc3,
   0xd3000d4000d6000d7000da000db000dd000de000e2000e4000e8000eb000f0000f3000f7000fa001,
   0x00d3300d4300d6300dd300de300df300f1300f4300f5300f6300f7300f8300fa300fb300fc300fd3,
   0x01d3216d3301d4216d4301d6216d6301dd216dd301de216de301df216df301f1216f1301f4216f43,
   0x02d3209d3217d3228d3302d4209d4217d4228d4302d6209d6217d6228d6302dd209dd217dd228dd3,
   0x03d3206d320ad320fd3218d321fd3229d3238d3303d4206d420ad420fd4218d421fd4229d4238d43,
   0x03d6206d620ad620fd6218d621fd6229d6238d6303dd206dd20add20fdd218dd21fdd229dd238dd3,
   0x02de209de217de228de302df209df217df228df302f1209f1217f1228f1302f4209f4217f4228f43,
   0x03de206de20ade20fde218de21fde229de238de303df206df20adf20fdf218df21fdf229df238df3,
   0x03f1206f120af120ff1218f121ff1229f1238f1303f4206f420af420ff4218f421ff4229f4238f43,
   0x01f5216f5301f6216f6301f7216f7301f8216f8301fa216fa301fb216fb301fc216fc301fd216fd3,
   0x02f5209f5217f5228f5302f6209f6217f6228f6302f7209f7217f7228f7302f8209f8217f8228f83,
   0x03f5206f520af520ff5218f521ff5229f5238f5303f6206f620af620ff6218f621ff6229f6238f63,
   0x03f7206f720af720ff7218f721ff7229f7238f7303f8206f820af820ff8218f821ff8229f8238f83,
   0x02fa209fa217fa228fa302fb209fb217fb228fb302fc209fc217fc228fc302fd209fd217fd228fd3,
   0x03fa206fa20afa20ffa218fa21ffa229fa238fa303fb206fb20afb20ffb218fb21ffb229fb238fb3,
   0x03fc206fc20afc20ffc218fc21ffc229fc238fc303fd206fd20afd20ffd218fd21ffd229fd238fd3,
   0x00fe3e3000e5000e6000e9000ea000ec000ed000f1000f2000f4000f5000f8000f9000fb000fc001,
   0x01fe216fe300023000330004300053000630007300083000b3000c3000e3000f3001030011300123,
   0x02fe209fe217fe228fe3010221602301032160330104216043010521605301062160630107216073,
   0x03fe206fe20afe20ffe218fe21ffe229fe238fe30202209022170222802302032090321703228033,
   0x03022060220a0220f022180221f022290223802303032060320a0320f032180321f0322903238033,
   0x02042090421704228043020520905217052280530206209062170622806302072090721707228073,
   0x03042060420a0420f042180421f042290423804303052060520a0520f052180521f0522905238053,
   0x03062060620a0620f062180621f062290623806303072060720a0720f072180721f0722907238073,
   0x0108216083010b2160b3010c2160c3010e2160e3010f2160f3011021610301112161130112216123,
   0x02082090821708228083020b2090b2170b2280b3020c2090c2170c2280c3020e2090e2170e2280e3,
   0x03082060820a0820f082180821f0822908238083030b2060b20a0b20f0b2180b21f0b2290b2380b3,
   0x030c2060c20a0c20f0c2180c21f0c2290c2380c3030e2060e20a0e20f0e2180e21f0e2290e2380e3,
   0x020f2090f2170f2280f3021020910217102281030211209112171122811302122091221712228123,
   0x030f2060f20a0f20f0f2180f21f0f2290f2380f303102061020a1020f102181021f1022910238103,
   0x03112061120a1120f112181121f112291123811303122061220a1220f122181221f1222912238123,
   0x001330014300153001730018300193001a3001b3001c3001d3001e3001f3007f300dc300f93fd001,
   0x011321613301142161430115216153011721617301182161830119216193011a2161a3011b2161b3,
   0x02132091321713228133021420914217142281430215209152171522815302172091721717228173,
   0x03132061320a1320f132181321f132291323813303142061420a1420f142181421f1422914238143,
   0x03152061520a1520f152181521f152291523815303172061720a1720f172181721f1722917238173,
   0x0218209182171822818302192091921719228193021a2091a2171a2281a3021b2091b2171b2281b3,
   0x03182061820a1820f182181821f182291823818303192061920a1920f192181921f1922919238193,
   0x031a2061a20a1a20f1a2181a21f1a2291a2381a3031b2061b20a1b20f1b2181b21f1b2291b2381b3,
   0x011c2161c3011d2161d3011e2161e3011f2161f3017f2167f301dc216dc301f9216f93fe000ff001,
   0x021c2091c2171c2281c3021d2091d2171d2281d3021e2091e2171e2281e3021f2091f2171f2281f3,
   0x031c2061c20a1c20f1c2181c21f1c2291c2381c3031d2061d20a1d20f1d2181d21f1d2291d2381d3,
   0x031e2061e20a1e20f1e2181e21f1e2291e2381e3031f2061f20a1f20f1f2181f21f1f2291f2381f3,
   0x027f2097f2177f2287f302dc209dc217dc228dc302f9209f9217f9228f93000a3000d300163fa000,
   0x037f2067f20a7f20f7f2187f21f7f2297f2387f303dc206dc20adc20fdc218dc21fdc229dc238dc3,
   0x03f9206f920af920ff9218f921ff9229f9238f93010a2160a3010d2160d30116216163fc000fc000,
   0x020a2090a2170a2280a3020d2090d2170d2280d302162091621716228163fd000fd000fd000fd000,
   0x030a2060a20a0a20f0a2180a21f0a2290a2380a3030d2060d20a0d20f0d2180d21f0d2290d2380d3,
   0x03162061620a1620f162181621f1622916238163ff000ff000ff000ff000ff000ff000ff000ff000]

/-- `ngx_http_huff_decode_code_t`. -/
structure HuffCode where
  next : ℕ
  emit : ℕ
  sym : ℕ
  ending : ℕ
deriving Repr, DecidableEq

/-- `ngx_http_huff_decode_codes[state][bits]`. -/
def huffDecodeCode (state bits : ℕ) : HuffCode :=
  let entry := huffDecodeCodes.getD state 0 >>> (20 * (15 - bits))
  ⟨entry >>> 12 % 256, entry >>> 1 % 2, entry >>> 4 % 256, entry % 2⟩

/-- What a call of the decoder leaves: the state, the flag `ending`, the bytes written, and
whether it failed. -/
structure HuffRun where
  state : ℕ
  ending : Bool
  out : List UInt8
  failed : Bool
deriving Repr, DecidableEq

/-- `ngx_http_huff_decode_bits`. -/
def huffDecodeBits (r : HuffRun) (bits : ℕ) : HuffRun :=
  let code := huffDecodeCode r.state bits
  if code.next = r.state then { r with failed := true }
  else
    { r with
      out := if code.emit ≠ 0 then r.out ++ [UInt8.ofNat code.sym] else r.out
      ending := code.ending ≠ 0
      state := code.next }

/-- One byte: its high four bits, and then its low ones unless the high ones have failed. -/
def huffDecodeByte (r : HuffRun) (ch : UInt8) : HuffRun :=
  let r := huffDecodeBits r (ch.toNat >>> 4)
  if r.failed then r else huffDecodeBits r (ch.toNat &&& 0xf)

/-- The loop over the source, which ends at the first failure. -/
@[grind =]
def huffDecodeAll : HuffRun → List UInt8 → HuffRun
  | r, [] => r
  | r, ch :: src =>
    let r := huffDecodeByte r ch
    if r.failed then r else huffDecodeAll r src

/-- `ngx_http_huff_decode`, for a piece of a string: the state and the bytes written so far go
on; at the last piece the code must be complete, and the state becomes 0. -/
def huffDecode (state : ℕ) (out : List UInt8) (src : List UInt8) (last : Bool) : HuffRun :=
  let r := huffDecodeAll ⟨state, true, out, false⟩ src
  if r.failed then r
  else if last then
    if r.ending then { r with state := 0 } else { r with failed := true }
  else r

/-- A string in pieces: `pieces`, and then the last one. -/
@[grind =]
def huffDecodePieces (state : ℕ) (out : List UInt8) : List (List UInt8) → List UInt8 → HuffRun
  | [], piece => huffDecode state out piece true
  | p :: pieces, piece =>
    let r := huffDecode state out p false
    if r.failed then r else huffDecodePieces r.state r.out pieces piece

end Hengine
