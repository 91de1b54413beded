import PrefixCalculus.Numeric.Special
set_option autoImplicit false

/-!
Series for the special functions. Gamma is a Lanczos sum of eleven terms with a reflection below one
half; digamma is carried up to twelve and read off an asymptotic series there. The error function is a
rational correction of its slope below one half; above, its complement is `exp (-x ^ 2) / x` times a
constant and a rational remainder, one pair per interval, so that small complements keep their digits.
-/

namespace PrefixCalculus

namespace Lanczos

def shift : Float := 10.900511

def factor : Float := 1.8603827342052657

def logFactor : Float := 0.6207822376352452

def constantTerm : Float := 2.48574089138753565546e-5

def coefficients : List Float :=
  [1.05142378581721974210, -3.45687097222016235469, 4.51227709466894823700,
    -2.98285225323576655721, 1.05639711577126713077, -1.95428773191645869583e-1,
    1.70970543404441224307e-2, -5.71926117404305781283e-4, 4.63399473359905636708e-6,
    -2.71994908488607703910e-9]

def sum (denominator : Nat → Float) : Float :=
  ((coefficients.zipIdx 1).foldl (fun acc c => acc + c.1 / denominator c.2) constantTerm)

def upper (x : Float) : Float :=
  sum fun k => x + Float.ofNat k - 1.0

def lower (x : Float) : Float :=
  sum fun k => Float.ofNat k - x

def gamma (x : Float) : Float :=
  if x < 0.5 then
    pi / (Float.sin (pi * x) * lower x * factor * Float.pow ((0.5 - x + shift) / euler) (0.5 - x))
  else
    upper x * factor * Float.pow ((x - 0.5 + shift) / euler) (x - 0.5)

def logGamma (x : Float) : Float :=
  if x < 0.5 then
    Float.log pi - Float.log (Float.sin (pi * x)) - Float.log (lower x) - logFactor
      - (0.5 - x) * Float.log ((0.5 - x + shift) / euler)
  else
    Float.log (upper x) + logFactor + (x - 0.5) * Float.log ((x - 0.5 + shift) / euler)

end Lanczos

namespace Digamma

def threshold : Float := 12.0

def asymptotic (x acc : Float) : Float :=
  let inv := 1.0 / x
  let r := inv * inv
  acc + (Float.log x - 0.5 * inv)
    - r * (1.0 / 12.0 - r * (1.0 / 120.0 - r * (1.0 / 252.0 - r * (1.0 / 240.0 - r * (1.0 / 132.0)))))

/-- Climb to the threshold by `digamma x = digamma (x + 1) - 1 / x`, at most `steps` times. -/
def climb : Nat → Float → Float → Float
  | 0, x, acc => asymptotic x acc
  | steps + 1, x, acc =>
    if x < threshold then climb steps (x + 1.0) (acc - 1.0 / x) else asymptotic x acc

def right (x : Float) : Float :=
  if x <= 1e-6 then -0.57721566490153286 - 1.0 / x + 1.6449340668482264365 * x
  else climb 12 x 0.0

def almostEqual (a b : Float) : Bool :=
  if a == b then true
  else
    let x := a.toBits.toNat
    let y := b.toBits.toNat
    signBit a == signBit b && max x y - min x y <= 4

end Digamma

def Digamma.digamma (x : Float) : Float :=
  if x == -infinity then nan
  else if x <= 0.0 && almostEqual (floor x) x then -infinity
  else if x < 0.0 then right (1.0 - x) + pi / Float.tan (-pi * x)
  else right x

namespace ErrorFunction

def polynomial (coefficients : List Float) (x : Float) : Float :=
  coefficients.foldr (fun c acc => acc * x + c) 0.0

/-- On an interval the complement times `x * exp (x ^ 2)` is `leading` plus a quotient of polynomials
in the distance from `start`. -/
structure Piece where
  start : Float
  stop : Float
  leading : Float
  numerator : List Float
  denominator : List Float

def pieces : List Piece := [
  ⟨0.5, 0.75, 0.3440242112,
    [-0.0361790390718262471360258, 0.292251883444882683221149, 0.281447041797604512774415,
     0.125610208862766947294894, 0.0274135028268930549240776, 0.00250839672168065762786937],
    [1.0, 1.8545005897903486499845, 1.43575803037831418074962, 0.582827658753036572454135,
     0.124810476932949746447682, 0.0113724176546353285778481]⟩,
  ⟨0.75, 1.25, 0.419990927,
    [-0.0397876892611136856954425, 0.153165212467878293257683, 0.191260295600936245503129,
     0.10276327061989304213645, 0.029637090615738836726027, 0.0046093486780275489468812,
     0.000307607820348680180548455],
    [1.0, 1.95520072987627704987886, 1.64762317199384860109595, 0.768238607022126250082483,
     0.209793185936509782784315, 0.0319569316899913392596356, 0.00213363160895785378615014]⟩,
  ⟨1.25, 2.25, 0.4898625016,
    [-0.0300838560557949717328341, 0.0538578829844454508530552, 0.0726211541651914182692959,
     0.0367628469888049348429018, 0.00964629015572527529605267,
     0.00133453480075291076745275, 0.778087599782504251917881e-4],
    [1.0, 1.75967098147167528287343, 1.32883571437961120556307, 0.552528596508757581287907,
     0.133793056941332861912279, 0.0179509645176280768640766, 0.00104712440019937356634038,
     -0.106640381820357337177643e-7]⟩,
  ⟨2.25, 3.5, 0.5317370892,
    [-0.0117907570137227847827732, 0.014262132090538809896674, 0.0202234435902960820020765,
     0.00930668299990432009042239, 0.00213357802422065994322516,
     0.00025022987386460102395382, 0.120534912219588189822126e-4],
    [1.0, 1.50376225203620482047419, 0.965397786204462896346934, 0.339265230476796681555511,
     0.0689740649541569716897427, 0.00771060262491768307365526,
     0.000371421101531069302990367]⟩,
  ⟨3.5, 5.25, 0.5489973426,
    [-0.00546954795538729307482955, 0.00404190278731707110245394,
     0.0054963369553161170521356, 0.00212616472603945399437862,
     0.000394984014495083900689956, 0.365565477064442377259271e-4,
     0.135485897109932323253786e-5],
    [1.0, 1.21019697773630784832251, 0.620914668221143886601045, 0.173038430661142762569515,
     0.0276550813773432047594539, 0.00240625974424309709745382,
     0.891811817251336577241006e-4, -0.465528836283382684461025e-11]⟩,
  ⟨5.25, 8.0, 0.5571740866,
    [-0.00270722535905778347999196, 0.0013187563425029400461378,
     0.00119925933261002333923989, 0.00027849619811344664248235,
     0.267822988218331849989363e-4, 0.923043672315028197865066e-6],
    [1.0, 0.814632808543141591118279, 0.268901665856299542168425,
     0.0449877216103041118694989, 0.00381759663320248459168994,
     0.000131571897888596914350697, 0.404815359675764138445257e-11]⟩,
  ⟨8.0, 11.5, 0.5609807968,
    [-0.00109946720691742196814323, 0.000406425442750422675169153,
     0.000274499489416900707787024, 0.465293770646659383436343e-4,
     0.320955425395767463401993e-5, 0.778286018145020892261936e-7],
    [1.0, 0.588173710611846046373373, 0.139363331289409746077541,
     0.0166329340417083678763028, 0.00100023921310234908642639, 0.24254837521587225125068e-4]⟩,
  ⟨11.5, 17.0, 0.5626493692,
    [-0.00056907993601094962855594, 0.000169498540373762264416984,
     0.518472354581100890120501e-4, 0.382819312231928859704678e-5,
     0.824989931281894431781794e-7],
    [1.0, 0.339637250051139347430323, 0.043472647870310663055044,
     0.00248549335224637114641629, 0.535633305337152900536536e-4,
     -0.117490944405459578783846e-12]⟩,
  ⟨17.0, 24.0, 0.5634598136,
    [-0.000241313599483991337479091, 0.574224975202501512365975e-4,
     0.115998962927383778460557e-4, 0.581762134402593739370875e-6,
     0.853971555085673614607418e-8],
    [1.0, 0.233044138299687841018015, 0.0204186940546440312625597,
     0.000797185647564398289151125, 0.117019281670172327758019e-4]⟩,
  ⟨24.0, 38.0, 0.5638477802,
    [-0.000146674699277760365803642, 0.162666552112280519955647e-4,
     0.269116248509165239294897e-5, 0.979584479468091935086972e-7,
     0.101994647625723465722285e-8],
    [1.0, 0.165907812944847226546036, 0.0103361716191505884359634,
     0.000286593026373868366935721, 0.298401570840900340874568e-5]⟩]

def Piece.complement (p : Piece) (x : Float) : Float :=
  let scale := Float.exp (-x * x) / x
  let remainder := polynomial p.numerator (x - p.start) / polynomial p.denominator (x - p.start)
  scale * p.leading + scale * remainder

def complement (x : Float) : Float :=
  match pieces.find? (fun p => x < p.stop) with
  | some p => p.complement x
  | none => 0.0

def numerator : List Float :=
  [0.00337916709551257388990745, -0.00073695653048167948530905,
   -0.374732337392919607868241, 0.0817442448733587196071743, -0.0421089319936548595203468,
   0.0070165709512095756344528, -0.00495091255982435110337458,
   0.000871646599037922480317225]

def denominator : List Float :=
  [1.0, -0.218088218087924645390535, 0.412542972725442099083918,
   -0.0841891147873106755410271, 0.0655338856400241519690695,
   -0.0120019604454941768171266, 0.00408165558926174048329689,
   -0.000615900721557769691924509]

/-- The error function between zero and one half; `1.125` is taken out of its slope. -/
def small (x : Float) : Float :=
  let correction :=
    if x < 1e-10 then 0.003379167095512573896158903121545171688
    else polynomial numerator x / polynomial denominator x
  x * 1.125 + x * correction

def erf (x : Float) : Float :=
  if x.isNaN then nan
  else if x == 0.0 then 0.0
  else
    let size := x.abs
    let value := if size < 0.5 then small size else 1.0 - complement size
    if x < 0.0 then -value else value

def erfc (x : Float) : Float :=
  if x.isNaN then nan
  else if x < -0.5 then 2.0 - complement (-x)
  else if x < 0.0 then 1.0 + small (-x)
  else if x < 0.5 then 1.0 - small x
  else complement x

end ErrorFunction

namespace Series

scoped instance specialFunctions : SpecialFunctions where
  gamma := Lanczos.gamma
  logGamma := Lanczos.logGamma
  digamma := Digamma.digamma
  erf := ErrorFunction.erf
  erfc := ErrorFunction.erfc

end Series

end PrefixCalculus
