/-
  Resumable.Text.Script — the scripts that characters belong to.

  The table holds the code points in order as runs of one script: two letters for the script and,
  if it is more than one, the length of the run.
-/
import Resumable.Text.Category

namespace Resumable.Text

/-- The scripts, in the order of the pairs of letters that stand for them in the table. -/
def scripts : List String :=
  ["Adlam", "Ahom", "Anatolian_Hieroglyphs", "Arabic", "Armenian", "Avestan", "Balinese",
   "Bamum", "Bassa_Vah", "Batak", "Bengali", "Bhaiksuki", "Bopomofo", "Brahmi", "Braille",
   "Buginese", "Buhid", "Canadian_Aboriginal", "Carian", "Caucasian_Albanian", "Chakma", "Cham",
   "Cherokee", "Chorasmian", "Common", "Coptic", "Cuneiform", "Cypriot", "Cypro_Minoan",
   "Cyrillic", "Deseret", "Devanagari", "Dives_Akuru", "Dogra", "Duployan",
   "Egyptian_Hieroglyphs", "Elbasan", "Elymaic", "Ethiopic", "Georgian", "Glagolitic", "Gothic",
   "Grantha", "Greek", "Gujarati", "Gunjala_Gondi", "Gurmukhi", "Han", "Hangul",
   "Hanifi_Rohingya", "Hanunoo", "Hatran", "Hebrew", "Hiragana", "Imperial_Aramaic",
   "Inherited", "Inscriptional_Pahlavi", "Inscriptional_Parthian", "Javanese", "Kaithi",
   "Kannada", "Katakana", "Kawi", "Kayah_Li", "Kharoshthi", "Khitan_Small_Script", "Khmer",
   "Khojki", "Khudawadi", "Lao", "Latin", "Lepcha", "Limbu", "Linear_A", "Linear_B", "Lisu",
   "Lycian", "Lydian", "Mahajani", "Makasar", "Malayalam", "Mandaic", "Manichaean", "Marchen",
   "Masaram_Gondi", "Medefaidrin", "Meetei_Mayek", "Mende_Kikakui", "Meroitic_Cursive",
   "Meroitic_Hieroglyphs", "Miao", "Modi", "Mongolian", "Mro", "Multani", "Myanmar",
   "Nabataean", "Nag_Mundari", "Nandinagari", "New_Tai_Lue", "Newa", "Nko", "Nushu",
   "Nyiakeng_Puachue_Hmong", "Ogham", "Ol_Chiki", "Old_Hungarian", "Old_Italic",
   "Old_North_Arabian", "Old_Permic", "Old_Persian", "Old_Sogdian", "Old_South_Arabian",
   "Old_Turkic", "Old_Uyghur", "Oriya", "Osage", "Osmanya", "Pahawh_Hmong", "Palmyrene",
   "Pau_Cin_Hau", "Phags_Pa", "Phoenician", "Psalter_Pahlavi", "Rejang", "Runic", "Samaritan",
   "Saurashtra", "Sharada", "Shavian", "Siddham", "SignWriting", "Sinhala", "Sogdian",
   "Sora_Sompeng", "Soyombo", "Sundanese", "Syloti_Nagri", "Syriac", "Tagalog", "Tagbanwa",
   "Tai_Le", "Tai_Tham", "Tai_Viet", "Takri", "Tamil", "Tangsa", "Tangut", "Telugu", "Thaana",
   "Thai", "Tibetan", "Tifinagh", "Tirhuta", "Toto", "Ugaritic", "Unknown", "Vai", "Vithkuqi",
   "Wancho", "Warang_Citi", "Yezidi", "Yi", "Zanabazar_Square"]

/-- The table. -/
def scriptTable : List String :=
  ["ay65cs26ay6cs26ay47csay15csay5cs23aycs31aycs449ay39cs5ay5am2ay20cd112br4aybr3ga2br4aybrga4br",
   "aybraybr3gabrgabr20gabr63az14br16bd133cd2bd169gaae38ga2ae50ga2ae3gaca55ga8ca27ga4ca6ga11ad5",
   "ayad6ayad14ayad3ayad32ayad10cd11ad26cdad108ayad34fi14gafi60ga2fi3ad48ft50ga14dx59ga2dx3ew46",
   "ga2ew15gadd28ga2ddgafi11ga5ad31gaad2ga6ad74ayad29bf81cd4bf15ay2bf26ak4gaak8ga2ak2ga2ak22ga",
   "ak7gaakga3ak4ga2ak9ga2ak2ga2ak4ga8akga4ak2gaak5ga2ak25ga2bu3gabu6ga4bu2ga2bu22gabu7gabu2ga",
   "bu2gabu2ga2bugabu5ga4bu2ga2bu3ga3buga7bu4gabuga7bu17ga10bs3gabs9gabs3gabs22gabs7gabs2gabs5",
   "ga2bs10gabs3gabs3ga2bsga15bs4ga2bs12ga7bs7gael3gael8ga2el2ga2el22gael7gael2gael5ga2el9ga2el2",
   "ga2el3ga7el3ga4el2gael5ga2el18ga10fp2gafp6ga3fp3gafp4ga3fp2gafpgafp2ga3fp2ga3fp3ga3fp12ga4",
   "fp5ga3fp3gafp4ga2fpga6fpga14fp21ga5fs13gafs3gafs23gafs16ga2fs9gafs3gafs4ga7fs2gafs3ga2fsga2",
   "fs4ga2fs10ga7fs9ci13gaci3gaci23gaci10gaci5ga2ci9gaci3gaci4ga7ci2ga6ci2gaci4ga2ci10gaci3ga12",
   "dc13gadc3gadc51gadc3gadc6ga4dc16ga2dc26gafc3gafc18ga3fc24gafc9gafcga2fc7ga3fcga4fc6gafcgafc8",
   "ga6fc10ga2fc3ga12fu58ga4ayfu28ga37cr2gacrgacr5gacr24gacrgacr23ga2cr5gacrgacr7gacr10ga2cr4",
   "ga32fv72gafv36ga4fv39gafv36gafv15gafv7ay4fv2ga37dr160bn38gabnga5bnga2bn43aybn4bw256bm73gabm4",
   "ga2bm7gabmgabm4ga2bm41gabm4ga2bm33gabm4ga2bm7gabmgabm4ga2bm15gabm57gabm4ga2bm67ga2bm32ga3",
   "bm26ga6aw86ga2aw6ga2ar640ea29ga3ev75ay3ev11ga7fj22ga9fjby21ay2ga9aq20ga12fk13gafk3gafk2ga12",
   "co94ga2co10ga6co10ga6do2ay2doaydo20ga6do89ga7do43ga5ar70ga10cu31gacu12ga4cu12ga4cuga3cu12",
   "fl30ga2fl5ga11dv44ga4dv26ga6dv11ga3dv2co32ap28ga2ap2fm63gafm29ga2fm11ga6fm10ga6fm14ga2cd31",
   "ga49ag77ga3ag47gafg64aj52ga8aj4ct56ga3ct15ga3ct3eb48bd9ga7bn43ga2bn3fg8ga8cd3aycd13aycd7ay4",
   "cday6cday3cd2ayga5cs38br5bdcs49br5cs4br5cs13bdcs70brcd64cs256br22ga2br6ga2br38ga2br6ga2br8ga",
   "brgabrgabrgabr31ga2br53gabr15gabr14ga2br6gabr19ga2br3gabr9gaay12cd2ay87gaay11csga2ay11csay15",
   "gacs13ga3ay33ga15cd33ga15ay38bray3cs2ay6csay27csay17cs41ay3ga4ay663ga25ay11ga21ay928ao256",
   "ay628ga2ay32gaay105bo96cs32az116ga5az7bn38gabnga5bnga2fw56ga7fw2ga14fwbm23ga9bm7gabm7gabm7ga",
   "bm7gabm7gabm7gabm7gabm7gabd32ay94ga34bv26gabv89ga12bv214ga26ay12ga4ay5bvaybvay25bv9cd4bw2ay8",
   "bv4ay4gacb86ga2cd2ay2cb3aycj90ay2cj3ga5am43gabw94gaay16am32ay36ga12cj16bw31gaay64bw31ay81",
   "cj47aycj88ay168bv6592ay64bv20992gg1165ga3gg55ga9cx48gb300ga20bd96ah88ga8ay34cs102ay3cs64ga5",
   "cs2gacsgacs5ga24cs14fh45ga3ay10ga6er56ga8ex70ga8ex12ga6bf32cl46aycleu36ga11eubw29ga3cg78gaay",
   "cg10ga4cg2dr31gaav55ga9av14ga2av10ga2av4dr32fn67ga24fn5di23ga10bm6ga2bm6ga2bm6ga9bm7gabm7ga",
   "cs43aycs9brcs4ay2ga4aw80di46ga2di10ga6bw11172ga12bw23ga4bw49ga8452bv366ga2bv106ga38cs7ga12",
   "ae5ga5ca26gaca5gacagaca2gaca2gaca10ad115ga16ad363ay2ad80ga2ad54ga7adga32ad16cd16ay10ga6cd14",
   "bd2ay35gaay19gaay4ga4ad5gaad135ga2aygaay32cs26ay6cs26ay11cj10aycj45ay2bw31ga3bw6ga2bw6ga2bw6",
   "ga2bw3ga3ay7gaay7ga10ay5ga2cw12gacw26gacw19gacw2gacw15ga2cw14ga34cw123ga5ay3ga4ay45ga3ay9",
   "br79gaay13ga3brga47ay45cdga130cy29ga3as49ga15cday27ga4ed36ga9ed3bp27ga5ef43ga5fz30gafzeg36",
   "ga4eg14ga42be80ez48en30ga2en10ga6em36ga4em36ga4bk40ga8at52ga11atgc11gagc15gagc7gagc2gagc11ga",
   "gc15gagc7gagc2ga67cv311ga9cv22ga10cv8ga24cs6gacs42gacs9ga69bb6ga2bbgabb44gabb2ga3bbga2bbcc22",
   "gacc9ep32ds31ga8ds9ga48bz19gabz2ga5bz5es28ga3escz26ga5czga64dl32dk24ga4dk20ga2dk46cm4gacm2",
   "ga5cm8gacm3gacm29ga2cm3ga4cm10ga7cm9ga7ei32ee32ga32de39ga4de12ga9af54ga3af7cf22ga2cf8ce19ga5",
   "ce8et18ga7et4ga12et7ga80ej73ga55ec51ga13ec51ga7ec6bx40ga8bx10ga294ad31gagf42gagf3ga2gf2ga75",
   "ad3eh40ga8fd42ga22ek26ga38ax28ga20bl23ga9an78ga4an36ga9anch67ga10chga2fe25ga7fe10ga6au53ga",
   "au18ga8da39ga9ey96gafc20ga11cp18gacp47ga62dq7gadqgadq4gadq15gadq11ga6cq59ga5cq10ga6bq4gabq8",
   "ga2bq2ga2bq22gabq7gabq2gabq5gacdbq9ga2bq2ga2bq3ga2bqga6bqga5bq7ga2bq7ga3bq5ga139dw92gadw5",
   "ga30fx72ga8fx10ga166fa54ga2fa38ga34dn69ga11dn10ga6do13ga19fo58ga6fo10ga54ab27ga2ab15ga4ab23",
   "ga185bh60ga100ge83ga12gebg7ga2bgga2bg8gabg2gabg30gabg2ga2bg12ga9bg10ga70du8ga2du46ga2du11",
   "ga27gh72ga8ff83ga13ar16eq57ga7bf10ga246al9gaal45gaal14ga10al29ga3df32ga2df22gadf14ga73dg7ga",
   "dg2gadg44ga3dggadg2gadg9ga8dg10ga6bt6gabt2gabt37gabt2gabt6ga7bt10ga310db25ga7ck17gack41ga3",
   "ck28ga86cxga15fp50ga13fpba922ga102ba111gaba5ga11ba196ga2636bc99ga13bj1110ga4010ac583ga8633",
   "ah569ga7dp31gadp10ga4dp2fq79gafq10ga6ai30ga2ai6ga10eo70ga10eo10gaeo7gaeo21ga5eo19ga688dh91",
   "ga101dm75ga4dm57ga7dm17ga64frdybv2cnga11bv2ga14fr6136ga8fr768cn470ga42fr9ga8935cj4gacj7gacj2",
   "gacjcb287cj3ga15cbga29cb3ga2cjga14cj4ga8dy396ga2308bi107ga5bi13ga3bi9ga7bi10ga2bi4ay4ga4700",
   "cd46ga2cd23ga9ay116ga60ay246ga10ay39ga2ay62cd3ay17cd8ay2cd7ay30cd4ay61ga21br70ga122ay20ga12",
   "ay20ga12ay87ga9ay25ga135ay85gaay71gaay2ga2ayga2ay2ga2ay4gaay12gaaygaay7gaay65gaay4ga2ay8ga",
   "ay7gaay28gaay4gaay5gaayga3ay7gaay340ga2ay292ga2ay50fb652ga15fb5gafb15ga1104cs31ga6cs6ga213",
   "bo7gabo17ga2bo7gabo2gabo5ga5bd62ga33bdga112dz45ga3dz14ga2dz10ga4dz2ga320fy31ga17gd58ga5gd",
   "ga464dt42ga742bm7gabm4gabm2gabm15gadj197ga2dj16ga41aa76ga4aa10ga4aa2ga785ay68ga76ay61ga194",
   "ad4gaad27gaad2gaadga2adgaad10gaad4gaadgaadga6adga4adgaadgaadgaad3gaad2gaadga2adgaadgaadgaad",
   "gaadgaad2gaadga2ad4gaad7gaad4gaad4gaadgaad10gaad17ga5ad3gaad5gaad17ga52ad2ga270ay44ga4ay100",
   "ga12ay15ga2ay15gaay15gaay37ga10ay174ga56ay26cbay2ga13ay44ga4ay9ga7ay2ga14ay6ga154ay984ga4",
   "ay17ga3ay13ga3ay119ga4ay95ga6ay12ga4ayga15ay12ga4ay56ga8ay10ga6ay40ga8ay30ga2ay2ga78ay340",
   "ga12ay14ga2ay13ga3ay9ga7ay46gaay7ga8ay14ga4ay9ga7ay9ga7ay147gaay55ga37ay10ga1030bv42720ga32",
   "bv4154ga6bv222ga2bv5762ga14bv7473ga3103bv542ga1506bv4939ga5bv4192ga711761ayga30ay96ga128",
   "cd240ga196112"]

/-- The script that a pair of letters stands for. -/
def scriptOfPair (a b : Char) : String :=
  scripts.getD (26 * (a.toNat - 0x61) + (b.toNat - 0x61)) ""

/-- Reads runs of two letters and a length.  `label` is the run being read, `start` its first code
    point and `length` the digits of its length so far. -/
def scriptRuns (label : String) (start length : Nat) : List Char → LabelledRanges
  | a :: b :: rest =>
      if a.isDigit then scriptRuns label start (10 * length + (a.toNat - 0x30)) (b :: rest)
      else if label.isEmpty then scriptRuns (scriptOfPair a b) 0 0 rest
      else
        labelledRun label start length ::
          scriptRuns (scriptOfPair a b) (start + max length 1) 0 rest
  | [a] => [labelledRun label start (10 * length + (a.toNat - 0x30))]
  | [] => [labelledRun label start length]

/-- The ranges of a script. -/
def scriptRanges? (name : String) : Option (List (Nat × Nat)) :=
  if name == "Unknown" || !scripts.contains name then none
  else
    let runs := scriptRuns "" 0 0 (scriptTable.flatMap String.toList)
    some ((runs.filter (fun r => r.1 == name)).map Prod.snd)

end Resumable.Text
