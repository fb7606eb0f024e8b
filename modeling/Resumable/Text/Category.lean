/-
  Resumable.Text.Category — the general categories of characters.

  Every code point has a category of two letters; the first of them is a larger category.  The
  table holds the code points in order as runs of one category: a letter for the category and,
  if it is more than one, the length of the run.
-/
namespace Resumable.Text

/-- The categories, in the order of the letters that stand for them in the table. -/
def categories : List String :=
  ["Cc", "Cf", "Cn", "Co", "Cs", "Ll", "Lm", "Lo", "Lt", "Lu", "Mc", "Me", "Mn", "Nd", "Nl", "No",
   "Pc", "Pd", "Pe", "Pf", "Pi", "Po", "Ps", "Sc", "Sk", "Sm", "So", "Zl", "Zp", "Zs"]

/-- The letters of the table. -/
def categoryLetters : String := "abcdefghijklmnopqrstuvwxyzABCD"

/-- The table. -/
def categoryTable : List String :=
  ["a32Dv3xv3wsvzvrv2n10v2z3v2j26wvsyqyf26wzsza33Dvx4AvyAhuzbAyAzp2yfv2yphtp3vj23zj7f24zf8jfjfjf",
   "jfjfjfjfjfjfjfjfjfjfjfjfjfjfjfjfjfjfjfjfjfjfjfjfjf2jfjfjfjfjfjfjfjf2jfjfjfjfjfjfjfjfjfjfjfjf",
   "jfjfjfjfjfjfjfjfjfjfjfj2fjfjf3j2fjfj2fj3f2j4fj2fj3f3j2fj2fjfjfj2fjf2jfj2fj3fjfj2f2hjf3h4jifj",
   "ifjifjfjfjfjfjfjfjfjf2jfjfjfjfjfjfjfjfjf2jifjfj3fjfjfjfjfjfjfjfjfjfjfjfjfjfjfjfjfjfjfjfjfjfj",
   "fjfjfjfjfjfjfjf7j2fj2f2jfj4fjfjfjfjf69hf27g18y4g12y14g5y7gygy17m112jfjfgyjfc2gf3vjc4y2jvj3cj",
   "cj2fj17cj9f35jf2j3f3jfjfjfjfjfjfjfjfjfjfjfjf5jfzjfj2f2j51f48jfjfjfjfjfjfjfjfjfjfjfjfjfjfjfjf",
   "jfAm5l2jfjfjfjfjfjfjfjfjfjfjfjfjfjfjfjfjfjfjfjfjfjfjfjfjfjfjfj2fjfjfjfjfjfjf2jfjfjfjfjfjfjfj",
   "fjfjfjfjfjfjfjfjfjfjfjfjfjfjfjfjfjfjfjfjfjfjfjfjfjfjfjfjfjfjfjfjfjfjfjfjfjfjfjfjfcj38c2gv6",
   "f41vrc2A2xcm45rmvm2vm2vmc8h27c4h4v2c11b6z3v2xv2A2m11vbv3h32gh10m21n10v4h2mh99vhm7bAm6g2m2Am4",
   "h2n10h3A2hv14cbhmh30m27c2h89m11hc14n10h33m9g2Av3gc2mx2h22m4gm9gm3gm5c2v15ch25m3c2vch11c5h24y",
   "h6cb2c6m8h41gm24bm32kh54mkmhk3m8k4mk2hm7h10m2v2n10vgh15mk2ch8c2h2c2h22ch7chc3h4c2mhk3m4c2k2",
   "c2k2mhc8kc4h2ch3m2c2n10h2x2p6Axhvmc2m2kch6c4h2c2h22ch7ch2ch2ch2c2mck3m2c4m2c2m3c3mc7h4chc7",
   "n10m2h3mvc10m2kch9ch3ch22ch7ch2ch5c2mhk3m5cm2kck2mc2hc15h2m2c2n10vxc7hm6cmk2ch8c2h2c2h22ch7c",
   "h2ch5c2mhkmkm4c2k2c2k2mc7m2kc4h2ch3m2c2n10Ahp6c10mhch6c3h3ch4c3h2chch2c3h2c3h3c3h12c4k2mk2c3",
   "k3ck3mc2hc6kc14n10p3A6xAc5mk3mh8ch3ch23ch16c2mhm3k4cm3cm4c7m2ch3c2hc2h2m2c2n10c7vp7Ahmk2vh8c",
   "h3ch23ch10ch5c2mhkmk5cmk2ck2m2c7k2c6h2ch2m2c2n10ch2kc12m2k2h9ch3ch41m2hk3m4ck3ck3mhAc4h3kp7",
   "h3m2c2n10p9Ah6cmk2ch18c3h24ch9chc2h7c3mc4k3m3cmck8c6n10c2k2vc12h48mh2m7c4xh6gm8vn10v2c37h2ch",
   "ch5ch24chch10mh2m9hc2h5cgcm7cn10c2h4c32hA3v15AvA3m2A6n10p10AmAmAmwswsk2h8ch36c4m14km5vm2h5",
   "m11cm36cA8mA6cA2v5A4v2c37h43k2m4km6km2k2m2hn10v6h6k2m2h4m3hk3h2k7h3m4h13mk2m2k6mhkn10k3mA2",
   "j38cjc5jc2f43vgf3h329ch4c2h7chch4c2h41ch4c2h33ch4c2h7chch4c2h15ch57ch4c2h67c2m3v9p20c3h16A10",
   "c6j86c2f6c2rh620Avh17Dh26wsc3h75v3o3h8c7h18m3kc9h19m2kv2c9h18m2c12h13ch3cm2c12h52m2km7k8mk2",
   "m11v3gv3xhmc2n10c6p10c6v6rv4m3bmn10c6h35gh53c7h5m2h34mhc5h70c10h31cm3k4m2k3c4k2mk6m3c4Ac3v2",
   "n10h30c2h5c11h44c4h26c6n10pc3A34h23m2k2mc2v2h53kmkm7cmkmk2m8k6m10c2mn10c6n10c6v7gv6c2m14lm16",
   "c49m4kh47mkm5kmk5mk2h8c3n10v7A10m9A9v2cm2kh30km4k2m2km3h2n10h44mkm2k3mkm3k2c8v4h36k8m8k2m2c3",
   "v5n10c3h3n10h30g6v2f9c7j43c2j3v8c8m3vm13km7h4mh6mh2km2hc5f44g63f13gf34g37m64jfjfjfjfjfjfjfjf",
   "jfjfjfjfjfjfjfjfjfjfjfjfjfjfjfjfjfjfjfjfjfjfjfjfjfjfjfjfjfjfjfjfjfjfjfjfjfjfjfjfjfjfjfjfjfjf",
   "jfjfjfjfjfjfjfjfjfjfjfjfjfjfjfjfjfjfjfjfjf9jfjfjfjfjfjfjfjfjfjfjfjfjfjfjfjfjfjfjfjfjfjfjfjfj",
   "fjfjfjfjfjfjfjfjfjfjfjfjfjfjfjfjfjfjfjfjfjfjfjfjf9j8f6c2j6c2f8j8f8j8f6c2j6c2f8cjcjcjcjf8j8",
   "f14c2f8i8f8i8f8i8f5cf2j4iyfy3f3cf2j4iy3f4c2f2j4cy3f8j5y3c2f3cf2j4iy2cD11b5r6v2utwu2twuv8BCb5",
   "Dv9utv4q2v3zwsv11zvqv10Db5cb10pgc2p6z3wsgp10z3wscg13c3x33c15m13l4ml3m12c15A2jA4jA2fj3f2j3fAj",
   "A2zj5A6jAjAjAj4Afj4fh4fA2f2j2z5jf4AzA2fAp16o35jfo4pA2c4z5A5z2A4zA2zA2zA7zA31z2A2zAzA31z268A8",
   "wswsA20z2A7wsA81zA30z25A40z6A69c25A11c21p60A78p22A183zA9zA54z8A111zA248wswswswswswswsp30A44",
   "z5wsz31wswswswswsz16A256z131wswswswswswswswswswswsz63wswsz32wsz258A48z21A2z6A39c2A32cA105j48",
   "f48jfj3f2jfjfjfj4fjf2jf6g2j3fjfjfjfjfjfjfjfjfjfjfjfjfjfjfjfjfjfjfjfjfjfjfjfjfjfjfjfjfjfjfjfj",
   "fjfjfjfjfjfjfjfjfjfjfjfjfjfjfjfjfjf2A6jfjfm3jfc5v4pv2f38cfc5fc2h56c7gvc14mh23c9h7ch7ch7ch7c",
   "h7ch7ch7ch7cm32v2ututv3utvutv9rv2rvutv2utwswswswsv5gv10r2v4rvwv13A2v3wswswswsrc34A26cA89c12",
   "A214c26A12c4Dv3AghowswswswswsA2wswswswsrws2Ao9m4k2rg5A2o3ghvA2ch86c2m2y2g2hrh90vg3hc5h43ch94",
   "cA2p4A10h32A36c12h16A31cp10A30p8Ap15A32p10A39p15A320h6592A64h21013gh1143c3A55c9h40g6v2h268g",
   "v3h16n10h2c20jfjfjfjfjfjfjfjfjfjfjfjfjfjfjfjfjfjfjfjfjfjfjfhml3vm10vgjfjfjfjfjfjfjfjfjfjfjfj",
   "fjfjfg2m2h70o10m2v6c8y23g9y2jfjfjfjfjfjfjf3jfjfjfjfjfjfjfjfjfjfjfjfjfjfjfjfjfjfjfjfjfjfjfjfj",
   "fjfjfjfjfjfjfgf8jfjfj2fjfjfjfjfgy2jfjfhjfjf3jfjfjfjfjfjfjfjfjfjfj5fj5fjfjfjfjfjfjfjfj4fjfc5j",
   "fcfcfjfjfc24g3jfhg2fh7mh3mh4mh23k2m2kA4mc3p6A2xAc6h52v4c8k2h50k16m2c8v2n10c6m18h6v3hvh2mn10",
   "h28m8v2h23m11k2c11vh29c3m3kh47mk2m4k2m2k3v13cgn10c4v2h5mgh9n10h5ch41m6k2m2k2m2c9h3mh8mkc2n10",
   "c2v4h16gh6A3hkmkh50mhm3h2m2h5m2hmhc24h2gv2h11km2k2v2hg2kmc10h6c2h6c2h6c9h7ch7cf43yg4f9gy2c4",
   "f80h35k2mk2mk2vkmc2n10c6h11172c12h23c4h49c4e2048d6400h366c2h106c38f7c12f5c5hmh10zh13ch5chch2",
   "ch2ch108y17c16h363swA16h64c2h54c7Ac32h12xA3m16v7wsvc6m16vr2q2wswswswswswswswsv2wsv4q3v3cv4rw",
   "swswsv3zrz3cvxv2c4h5ch135c2bcv3xv3wsvzvrv2n10v2z3v2j26wvsyqyf26wzszwsvwsv2h10gh45g2h31c3h6c2",
   "h6c2h6c2h3c3x2zyAx2cAz4A2c10b3A2c2h12ch26ch19ch2ch15c2h14c34h123c5v3c4p45c3A9o53p4A17p2A3c",
   "A13c3Ac47A45mc130h29c3h49c15mp27c4h32p4c9h20oh8oc5h38m5c5h30cvh36c4h8vo5c42j40f40h78c2n10c6",
   "j36c4f36c4h40c8h52c11vj11cj15cj7cj2cf11cf15cf7cf2c67h311c9h22c10h8c24g6cg42cg9c69h6c2hch44c",
   "h2c3hc2h23cvp8h23A2p7h31c8p9c48h19ch2c5p5h22p6c3vh26c5vc64h56c4p2h2p16c2p46hm3cm2c5m4h4ch3c",
   "h29c2m3c4mp9c7v9c7h29p2vh29p3c32h8Ah28m2c4p5v7c9h54c3v7h22c2p8h19c5p8h18c7v4c12p7c80h73c55",
   "j51c13f51c7p6h36m4c8n10c294p31ch42cm2rc2h2c75m3h29p10hc8h22m11p4v5c22h18m4v4c38h21p7c20h23c9",
   "kmkh53m15v7c4p20n10mh2m2hc9m3kh45k3m4k2m2v2bv4mc10bc2h25c7n10c6m3h36m5km8cn10v4hk2hc8h35mv2h",
   "c9m2kh48k3m9k2h4v4m4vkmn10hvhv3cp20c11h18ch25k3m3k2mkm2v6mh2mc62h7chch4ch15ch10vc6h47mk3m8c5",
   "n10c6m2k2ch8c2h2c2h22ch7ch2ch5cm2hk2mk4c2k2c2k3c2hc6kc5h5k2c2m7c3m5c139h53k3m8k2m3kmh4v5n10",
   "v2cvmh3c30h48k3m6kmk4m2km2h2vhc8n10c166h47k3m4c2k4m2km2v23h4m2c34h48k3m8k2mkm2v3hc11n10c6v13",
   "c19h43mkmk2m6kmhvc6n10c54h27c2m3k2m4km5c4n10p2v3Ah7c185h44k3m9km2vc100j32f32n10p9c12h8c2hc2",
   "h8ch2ch24k6ck2c2m2kmhkhkmv3c9n10c70h8c2h39k3m4c2m2k4mhvhkc27hm10h40m6khm4v8mc8hm6k2m3h46m13k",
   "m2v3hv5c13h73c7v10c246h9ch37km7cm6kmhv5c10n10p19c3v2h30c2m22ckm7km2km2c73h7ch2ch38m6c3mcm2c",
   "m7hmc8n10c6h6ch2ch32k5cm2ck2mkmhc7n10c310h19m2k2v2c7m2hkh13ch34k2m5c3k2mkmv13n10c86hc15p21A8",
   "x4A17c13vh922c102o111cv5c11h196c2636h97v2c13h1072b16mh6m15c4010h583c8633h569c7h31cn10c4v2h79",
   "cn10c6h30c2m5vc10h48m7v5A4g4vAc10n10cp7ch21c5h19c688j32f32p23v4c101h75c4mhk55c7m4g13c64g2vgm",
   "c11k2c14h6136c8h1238c42h9c8935g4cg7cg2ch291c15hc29h3c2hc14h4c8h396c2308h107c5h13c3h9c7h10c2A",
   "m2vb4c4700m46c2m23c9A116c60A246c10A39c2A60k2m3A3k6b8m8A2m7A30m4A61c21A66m3Ac122p20c12p20c12",
   "A87c9p25c135j26f26j26f7cf18j26f26jcj2c2jc2j2c2j4cj8f4cfcf7cf11j26f26j2cj4c2j8cj7cf26j2cj4cj5",
   "cjc3j7cf26j26f26j26f26j26f26j26f26j26f26j26f28c2j25zf25zf6j25zf25zf6j25zf25zf6j25zf25zf6j25z",
   "f25zf6jfc2n50A512m55A4m50A8mA14mA2v5c15m5cm15c1104f10hf20c6f6c213m7cm17c2m7cm2cm5c5g62c33m",
   "c112h45c3m7g7c2n10c4hAc320h30mc17h44m4n10c5xc464h27gm4n10c742h7ch4ch2ch15ch197c2p9m7c41j34",
   "f34m7gc4n10c4v2c785p59Ap3xp4c76p45Ap15c194h4ch27ch2chc2hch10ch4chchc6hc4hchchch3ch2chc2hchch",
   "chchch2chc2h4ch7ch4ch4chch10ch17c5h3ch5ch17c52z2c270A44c4A100c12A15c2A15cA15cA37c10p13A161",
   "c56A29c13A44c4A9c7A2c14A6c154A251y5A728c4A17c3A13c3A119c4A95c6A12c4Ac15A12c4A56c8A10c6A40c8",
   "A30c2A2c78A340c12A14c2A13c3A9c7A46cA7c8A14c4A9c7A9c7A147cA55c37n10c1030h42720c32h4154c6h222",
   "c2h5762c14h7473c3103h542c1506h4939c5h4192c711761bc30b96c128m240c65040d65534c2d65534c2"]

/-- Ranges of code points, each with what a table says of it. -/
abbrev LabelledRanges := List (String × Nat × Nat)

/-- A run that starts at a code point; a length that is not written is one. -/
def labelledRun (label : String) (start length : Nat) : String × Nat × Nat :=
  (label, start, start + max length 1 - 1)

/-- Reads runs of one letter and a length.  `label` is the run being read, `start` its first code
    point and `length` the digits of its length so far. -/
def categoryRuns (label : String) (start length : Nat) : List Char → LabelledRanges
  | [] => [labelledRun label start length]
  | c :: rest =>
      if c.isDigit then categoryRuns label start (10 * length + (c.toNat - 0x30)) rest
      else
        let next := categories.getD (categoryLetters.toList.idxOf c) ""
        if label.isEmpty then categoryRuns next 0 0 rest
        else labelledRun label start length :: categoryRuns next (start + max length 1) 0 rest

/-- The ranges of a category; a single letter stands for the larger category.  Code points that
    are not assigned belong to none. -/
def categoryRanges? (name : String) : Option (List (Nat × Nat)) :=
  let members := categories.filter (fun c => c != "Cn" && (c == name || c.take 1 == name))
  if members.isEmpty then none
  else
    let runs := categoryRuns "" 0 0 (categoryTable.flatMap String.toList)
    some ((runs.filter (fun r => members.contains r.1)).map Prod.snd)

end Resumable.Text
