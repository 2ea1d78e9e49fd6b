import ChartScript.Text.Printable
/-!
Lower-casing of texts by the Unicode default mapping. One mapping depends on its place: a capital
sigma at the end of a word becomes the final form.
-/
namespace ChartScript.Text

/-- Runs of capitals, each by the number of code points before it, the number of those it spans, the
distance between neighbours, and the code point the first one maps to; the others keep its offset. -/
def capitalRuns : List Nat :=
  [192,23,1,224,1,7,1,248,33,47,2,257,3,5,2,307,2,15,2,314,2,45,2,331,1,1,1,255,0,5,2,378,3,1,1,595,
   0,3,2,387,1,1,1,596,0,1,1,392,1,2,1,598,0,1,1,396,2,1,1,477,0,1,1,601,0,1,1,603,0,1,1,402,1,1,1,
   608,0,1,1,611,1,1,1,617,0,1,1,616,0,1,1,409,3,1,1,623,0,1,1,626,1,1,1,629,0,5,2,417,1,1,1,640,0,
   1,1,424,1,1,1,643,2,1,1,429,1,1,1,648,0,1,1,432,1,2,1,650,0,3,2,436,1,1,1,658,0,1,1,441,3,1,1,
   445,7,1,1,454,0,1,1,454,1,1,1,457,0,1,1,457,1,1,1,460,0,17,2,460,2,17,2,479,2,1,1,499,0,3,2,499,
   1,1,1,405,0,1,1,447,0,39,2,505,1,1,1,414,1,17,2,547,7,1,1,11365,0,1,1,572,1,1,1,410,0,1,1,11366,
   2,1,1,578,1,1,1,384,0,1,1,649,0,1,1,652,0,9,2,583,289,3,2,881,3,1,1,887,8,1,1,1011,6,1,1,940,1,3,
   1,941,1,1,1,972,1,2,1,973,1,17,1,945,1,9,1,963,35,1,1,983,8,23,2,985,5,1,1,952,2,1,1,1016,1,1,1,
   1010,0,1,1,1019,2,3,1,891,0,16,1,1104,0,32,1,1072,48,33,2,1121,9,53,2,1163,1,1,1,1231,0,13,2,
   1218,2,95,2,1233,2,38,1,1377,2889,38,1,11520,1,1,1,11559,5,1,1,11565,722,80,1,43888,0,6,1,5112,
   2195,1,1,7306,6,43,1,4304,2,3,1,4349,320,149,2,7681,9,1,1,223,1,95,2,7841,9,8,1,7936,8,6,1,7952,
   10,8,1,7968,8,8,1,7984,8,6,1,8000,11,7,2,8017,8,8,1,8032,24,8,1,8064,8,8,1,8080,8,8,1,8096,8,2,1,
   8112,0,2,1,8048,0,1,1,8115,11,4,1,8050,0,1,1,8131,11,2,1,8144,0,2,1,8054,12,2,1,8160,0,2,1,8058,
   0,1,1,8165,11,2,1,8056,0,2,1,8060,0,1,1,8179,297,1,1,969,3,1,1,107,0,1,1,229,6,1,1,8526,45,16,1,
   8560,19,1,1,8580,818,26,1,9424,1840,48,1,11312,48,1,1,11361,1,1,1,619,0,1,1,7549,0,1,1,637,2,5,2,
   11368,1,1,1,593,0,1,1,625,0,1,1,592,0,1,1,594,1,1,1,11379,2,1,1,11382,8,2,1,575,0,99,2,11393,8,3,
   2,11500,4,1,1,11507,31053,45,2,42561,19,27,2,42625,135,13,2,42787,3,61,2,42803,10,3,2,42874,1,1,
   1,7545,0,9,2,42879,4,1,1,42892,1,1,1,613,2,3,2,42897,3,19,2,42903,1,1,1,614,0,1,1,604,0,1,1,609,
   0,1,1,620,0,1,1,618,1,1,1,670,0,1,1,647,0,1,1,669,0,1,1,43859,0,15,2,42933,1,1,1,42900,0,1,1,642,
   0,1,1,7566,0,3,2,42952,1,1,1,612,0,15,2,42957,1,1,1,411,24,1,1,42998,22315,26,1,65345,1221,40,1,
   66600,136,36,1,66776,156,11,1,66967,1,15,1,66979,1,7,1,66995,1,2,1,67003,1770,51,1,68800,157,22,
   1,68976,2874,32,1,71872,21888,32,1,93792,64,25,1,93883,31303,34,1,125218]

def casedRuns : List Nat :=
  [65,26,6,26,47,1,10,1,4,1,5,23,1,31,1,195,1,4,4,208,2,35,7,2,30,5,96,1,42,4,2,2,2,4,1,1,6,1,1,3,1,
   1,1,20,1,83,1,139,8,166,1,38,9,41,2839,38,1,1,5,1,2,43,1,4,672,86,2,6,2178,11,5,43,2,3,64,192,64,
   278,2,6,2,38,2,6,2,8,1,1,1,1,1,1,1,31,2,53,1,7,1,1,3,3,1,7,3,4,2,6,4,13,5,3,1,7,116,1,13,1,16,13,
   101,1,4,1,2,10,1,1,3,5,6,1,1,1,1,1,1,4,1,6,4,1,2,4,5,5,4,1,17,32,3,2,817,52,1814,229,6,4,3,2,12,
   38,1,1,5,1,30994,46,18,30,132,102,3,4,1,77,20,6,1,3,821,43,1,14,6,80,20288,7,12,5,1033,26,6,26,
   1189,80,96,36,4,36,116,11,1,15,1,7,1,2,1,11,1,15,1,7,1,2,451,1,2,3,1,42,1,9,1221,51,13,51,93,22,
   10,22,2842,64,21856,64,32,25,2,25,25900,85,1,71,1,2,2,1,2,2,2,4,1,12,1,1,1,7,1,65,1,4,2,8,1,7,1,
   28,1,4,1,5,1,1,3,7,1,340,2,25,1,25,1,31,1,25,1,31,1,25,1,31,1,25,1,31,1,25,1,8,1844,10,1,20,6,6,
   261,62,2194,68,2028,26,6,26,6,26]

/-- Code points that are case-ignorable but do not attach to the character before, or the other way
round. -/
def caseIgnorableExceptionRuns : List Nat :=
  [39,1,6,1,11,1,35,1,1,1,71,1,4,1,1,1,4,1,2,2,503,80,116,2,4,1,9,2,1,1,465,1,5,1,148,1,11,6,22,1,
   35,1,156,1,7,2,40,1,228,2,4,1,31,1,9,1,3,1,95,1,7,2,55,1,24,1,142,1,76,1,24,1,358,1,24,1,102,1,
   24,1,232,1,1,1,4,2,1,2,9,2,103,1,24,1,119,1,15,1,102,1,127,1,565,1,1560,1,30,1,162,1,54,1,52,1,
   611,1,141,1,5,1,1,1,5,2,101,1,71,2,132,6,174,63,13,1,34,37,509,1,1,3,11,3,13,3,13,3,13,2,12,1,1,
   3,8,2,10,1,2,1,2,5,49,5,1,10,1,1,13,1,16,13,3039,2,241,1,191,1,469,1,40,2,1,5,5,1,95,4,93,3,
   28438,1,1250,6,270,1,114,1,28,2,98,34,78,1,23,3,102,4,3,2,345,1,108,1,14,1,22,1,137,1,108,1,21,2,
   102,5,9,3,20550,17,592,1,62,1,2,1,169,1,7,1,6,1,11,1,35,1,1,1,47,1,45,2,67,1,21,3,1924,6,1,42,1,
   9,1427,1,32,1,341,1,503,1,15,1,242,1,116,1,264,1,14,1,9,1,96,1,9,1,2,1,1,3,5,1,224,1,12,1,241,1,
   262,1,633,1,12,1,1179,1,359,1,5358,16,14080,4,508,3,40,2,550,13,64,2,1,1,12,4,16380,4,1,7,1,2,
   3233,4,5313,2,6,14,3765,62,201,7,941,1,531,1,587,1,2735,5,789505,1]

/-- The lower-case code point of a capital in one of the runs. -/
def lowerIn : List Nat → Nat → Option Nat
  | gap :: length :: step :: image :: rest, code =>
    if code < gap then none
    else if code - gap < length then
      if (code - gap) % step = 0 then some (image + (code - gap)) else none
    else lowerIn rest (code - gap - length)
  | _, _ => none

def lowerCode (code : Nat) : Nat :=
  (lowerIn capitalRuns code).getD code

/-- The lower-case form of a character outside any word. The dotted capital I keeps its dot as a
combining mark. -/
def lowerChar (c : Char) : List Char :=
  if c.toNat < 128 then [c.toLower]
  else if c.toNat = 0x130 then ['i', Char.ofNat 0x307]
  else [Char.ofNat (lowerCode c.toNat)]

def isCaseIgnorable (code : Nat) : Bool :=
  inRuns attachingRuns code != inRuns caseIgnorableExceptionRuns code

/-- After skipping case-ignorable characters, a cased one comes next. -/
def meetsCased (cs : List Char) : Bool :=
  match cs.dropWhile fun c => isCaseIgnorable c.toNat with
  | c :: _ => inRuns casedRuns c.toNat
  | [] => false

/-- Lower-cases the rest of a text after the characters `before` (nearest first). -/
def lowerFrom (before : List Char) : List Char → List Char
  | [] => []
  | c :: rest =>
    if c.toNat = 0x3A3 then
      let final := meetsCased before && !meetsCased rest
      Char.ofNat (if final then 0x3C2 else 0x3C3) :: lowerFrom (c :: before) rest
    else lowerChar c ++ lowerFrom (c :: before) rest

def lowerCase (text : String) : String :=
  String.ofList (lowerFrom [] text.toList)

end ChartScript.Text
