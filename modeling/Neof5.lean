import Neof5.Trick
import Neof5.CardText
import Neof5.Sage.Agari
import Neof5.Sage.Turn
import Neof5.Sage.Order
import Neof5.Sage.PlayOut
import Neof5.RuleSpec
import Neof5.Sage.Estimate
import Neof5.WsThread
import Neof5.FrontEnd
import Neof5.PoorExact
import Neof5.Sage.BestChild
import Neof5.Sage.FirstMoves
import Neof5.Sage.Timeout
import Neof5.Sage.LookAhead
import Neof5.Sage.Aside
import Neof5.WsClient
import Neof5.PicojsonLanguage
import Neof5.Referee
import Neof5.WsClosing
import Neof5.Sage.Rating
import Neof5.Lib.Blocks
import Neof5.Lib.Sha1
import Neof5.Lws.Sha1
import Neof5.Lib.Base64
import Neof5.Lws.Accept
import Neof5.Lws.Lextable
