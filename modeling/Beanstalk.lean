import Beanstalk.Wire.Bytes
import Beanstalk.Wire.Protocol
import Beanstalk.Wire.Decoder
import Beanstalk.Wire.Reader
import Beanstalk.Wire.Framing
import Beanstalk.Wire.ReadLoop
import Beanstalk.Wire.EndOfStream
import Beanstalk.Wire.ByteLevel
import Beanstalk.Wire.Encoder
import Beanstalk.Wire.ResponseFormat
import Beanstalk.Types.BTreeMap
import Beanstalk.Types.Tube
import Beanstalk.Types.Server
import Beanstalk.Ebeans.ClientLoop
import Beanstalk.Ebeans.Connection
